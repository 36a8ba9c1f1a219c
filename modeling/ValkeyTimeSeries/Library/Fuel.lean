/-
Library/Fuel.lean

Programs with loops, run on fuel.

Design.  A program is a function of its fuel; `none` means that the fuel ran out.  `Ends` says that the
program returns `a` on every large enough fuel, so that programs that end compose without a monotonicity lemma
for each loop.
-/
import Mathlib.Data.Nat.Basic

namespace ValkeyTimeSeries

variable {α β : Type}

/-- The program returns `a`, on any fuel from some bound on. -/
def Ends (p : Nat → Option α) (a : α) : Prop := ∃ bound, ∀ fuel ≥ bound, p fuel = some a

namespace Ends

variable {a : α} {b : β} {p : Nat → Option α} {g : α → Nat → Option β}

theorem pure (a : α) : Ends (fun _ => some a) a := ⟨0, fun _ _ => rfl⟩

theorem congr {q : Nat → Option α} (h : Ends p a) (heq : ∀ fuel, q fuel = p fuel) : Ends q a := by
  obtain ⟨n, hn⟩ := h
  exact ⟨n, fun fuel hfuel => (heq fuel).trans (hn fuel hfuel)⟩

theorem bind (h : Ends p a) (hnext : Ends (g a) b) : Ends (fun fuel => p fuel >>= (g · fuel)) b := by
  obtain ⟨n, hn⟩ := h
  obtain ⟨k, hk⟩ := hnext
  refine ⟨max n k, fun fuel hfuel => ?_⟩
  dsimp only
  rw [hn fuel (Nat.le_trans (Nat.le_max_left n k) hfuel)]
  exact hk fuel (Nat.le_trans (Nat.le_max_right n k) hfuel)

theorem map (h : Ends p a) (f : α → β) : Ends (fun fuel => (p fuel).map f) (f a) := by
  obtain ⟨n, hn⟩ := h
  refine ⟨n, fun fuel hfuel => ?_⟩
  dsimp only
  rw [hn fuel hfuel, Option.map_some]

theorem unique {a' : α} (h : Ends p a) (h' : Ends p a') : a = a' := by
  obtain ⟨n, hn⟩ := h
  obtain ⟨k, hk⟩ := h'
  have hmax := hk (max n k) (Nat.le_max_right n k)
  rw [hn (max n k) (Nat.le_max_left n k)] at hmax
  exact Option.some.inj hmax

theorem round {body : Nat → Option α} (h : Ends p a) (hbody : ∀ fuel, body (fuel + 1) = p fuel) : Ends body a := by
  obtain ⟨n, hn⟩ := h
  refine ⟨n + 1, fun fuel hfuel => ?_⟩
  obtain ⟨fuel, rfl⟩ : ∃ k, fuel = k + 1 := ⟨fuel - 1, by omega⟩
  rw [hbody, hn fuel (by omega)]

theorem last {body : Nat → Option α} (hbody : ∀ fuel, body (fuel + 1) = some a) : Ends body a :=
  round (p := fun _ => some a) (pure a) hbody

/-- A loop over a list, from the invariant that a round establishes. -/
theorem foldlM {γ : Type} {step : Nat → β → γ → Option β} {I : List γ → β → Prop} (todo done : List γ) (b : β)
    (hround : ∀ done c b, c ∈ todo → I done b → ∃ b', Ends (fun fuel => step fuel b c) b' ∧ I (done ++ [c]) b')
    (hinv : I done b) : ∃ b', Ends (fun fuel => todo.foldlM (step fuel) b) b' ∧ I (done ++ todo) b' := by
  induction todo generalizing done b with
  | nil => exact ⟨b, pure b, by rwa [List.append_nil]⟩
  | cons c todo ih =>
    obtain ⟨b₁, hends, hinv₁⟩ := hround done c b (List.mem_cons_self) hinv
    obtain ⟨b₂, hrest, hinv₂⟩ := ih (done ++ [c]) b₁
      (fun done c b hc => hround done c b (List.mem_cons_of_mem _ hc)) hinv₁
    refine ⟨b₂, ?_, by rwa [List.append_assoc] at hinv₂⟩
    exact hends.bind (g := fun b fuel => todo.foldlM (step fuel) b) hrest

end Ends

end ValkeyTimeSeries
