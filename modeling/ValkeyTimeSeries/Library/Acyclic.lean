/-
Library/Acyclic.lean

Relations without cycles, and how they may grow.

A relation stays acyclic when it is mapped into an acyclic one, when an edge is added whose end does not lead
back to its begin, and when a node is added that nothing leads to or that leads nowhere.
-/
import Mathlib.Logic.Relation

namespace ValkeyTimeSeries

open Relation

variable {α β : Type} {r r' : α → α → Prop}

/-- No walk along `r` returns to where it began. -/
def Acyclic (r : α → α → Prop) : Prop := ∀ a, ¬ TransGen r a a

namespace Acyclic

theorem map {r' : β → β → Prop} (h : Acyclic r) (f : β → α) (hf : ∀ x y, r' x y → r (f x) (f y)) : Acyclic r' :=
  fun a hcycle => h (f a) (hcycle.lift f hf)

theorem mono (h : Acyclic r) (hsub : ∀ x y, r' x y → r x y) : Acyclic r' := h.map id hsub

/-- A walk either does without the edge from `a` to `b` or takes it once. -/
theorem walk_cases {a b : α} (hback : ¬ ReflTransGen r b a) (hsub : ∀ x y, r' x y → r x y ∨ x = a ∧ y = b) {x y : α}
    (hwalk : TransGen r' x y) : TransGen r x y ∨ ReflTransGen r x a ∧ ReflTransGen r b y := by
  induction hwalk with
  | single hedge =>
    rcases hsub _ _ hedge with hold | ⟨rfl, rfl⟩
    · exact .inl (.single hold)
    · exact .inr ⟨.refl, .refl⟩
  | tail _ hedge ih =>
    rcases hsub _ _ hedge with hold | ⟨rfl, rfl⟩
    · rcases ih with hwalk | ⟨hto, hon⟩
      · exact .inl (hwalk.tail hold)
      · exact .inr ⟨hto, hon.tail hold⟩
    · rcases ih with hwalk | ⟨-, hon⟩
      · exact .inr ⟨hwalk.to_reflTransGen, .refl⟩
      · exact absurd hon hback

theorem addEdge (h : Acyclic r) {a b : α} (hback : ¬ ReflTransGen r b a)
    (hsub : ∀ x y, r' x y → r x y ∨ x = a ∧ y = b) : Acyclic r' := by
  intro x hcycle
  rcases walk_cases hback hsub hcycle with hold | ⟨hto, hon⟩
  · exact h x hold
  · exact hback (hon.trans hto)

/-- A walk between other nodes does not pass a node that nothing leads to or that leads nowhere. -/
theorem walk_avoids {k : α} (hend : (∀ x, ¬ r' x k) ∨ ∀ y, ¬ r' k y)
    (hsub : ∀ x y, x ≠ k → y ≠ k → r' x y → r x y) {x y : α} (hwalk : TransGen r' x y) (hx : x ≠ k) (hy : y ≠ k) :
    TransGen r x y := by
  induction hwalk with
  | single hedge => exact .single (hsub _ _ hx hy hedge)
  | @tail z y hwalk hedge ih =>
    have hz : z ≠ k := by
      rintro rfl
      rcases hend with hin | hout
      · obtain ⟨w, -, hw⟩ := TransGen.tail'_iff.mp hwalk
        exact hin w hw
      · exact hout y hedge
    exact (ih hz).tail (hsub _ _ hz hy hedge)

theorem addNode (h : Acyclic r) {k : α} (hend : (∀ x, ¬ r' x k) ∨ ∀ y, ¬ r' k y)
    (hsub : ∀ x y, x ≠ k → y ≠ k → r' x y → r x y) : Acyclic r' := by
  intro x hcycle
  by_cases hx : x = k
  · subst hx
    rcases hend with hin | hout
    · obtain ⟨w, -, hw⟩ := TransGen.tail'_iff.mp hcycle
      exact hin w hw
    · obtain ⟨w, hw, -⟩ := TransGen.head'_iff.mp hcycle
      exact hout w hw
  · exact h x (walk_avoids hend hsub hcycle hx hx)

end Acyclic

end ValkeyTimeSeries
