/-
Library/HashOrder.lean

The order in which a hash map gives out its entries.

The entries are kept as a list in the order they were made; walking or draining the map gives
them in some other order, which nothing is known of but that it is a permutation.
-/
import Mathlib

/-- An order in which a hash map may give out its entries. -/
structure HashOrder (α : Type*) where
  order : List α → List α
  perm : ∀ l, (order l).Perm l

namespace HashOrder

variable {α : Type*}

def insertion : HashOrder α := ⟨id, fun _ => .refl _⟩

theorem exists_order {l l' : List α} (h : l'.Perm l) : ∃ order : HashOrder α, order.order l = l' := by
  classical
  refine ⟨⟨fun m => if m = l then l' else m, fun m => ?_⟩, if_pos rfl⟩
  split_ifs with heq
  · exact heq ▸ h
  · exact .refl _

end HashOrder
