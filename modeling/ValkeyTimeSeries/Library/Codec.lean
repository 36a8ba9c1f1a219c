/-
Library/Codec.lean

Writers and readers of a token stream, and the rules that put them together.

A sink or a source is some state `σ` with a denotation `D s xs`, "the state `s` holds the tokens `xs`": the
bits a packed buffer stands for, the bytes or the values left to load.

* `Writes D f xs`: the writer `f` appends the tokens `xs`;
* `Reads D p xs a`: from any state that holds `xs` followed by anything, the
  reader `p` succeeds with `a`, consumes exactly `xs` and leaves the rest.

Quantifying over what follows is what makes `Reads` compose.
-/
import ValkeyTimeSeries.Library.Bits

namespace Codec

variable {σ ε ε' τ α β : Type}

/-! ### Writers -/

/-- `f` appends the tokens `xs` to whatever the sink holds. -/
def Writes (D : σ → List τ → Prop) (f : σ → σ) (xs : List τ) : Prop :=
  ∀ s ys, D s ys → D (f s) (ys ++ xs)

namespace Writes

variable {D : σ → List τ → Prop} {f g : σ → σ} {xs ys : List τ}

theorem id : Writes D (fun s => s) [] := by
  intro s ys h
  simpa using h

theorem comp (hf : Writes D f xs) (hg : Writes D g ys) : Writes D (fun s => g (f s)) (xs ++ ys) := by
  intro s zs h
  simpa using hg _ _ (hf s zs h)

theorem foldl {w : σ → α → σ} {enc : α → List τ} (hw : ∀ a, Writes D (fun s => w s a) (enc a))
    (as : List α) : Writes D (fun s => as.foldl w s) (as.flatMap enc) := by
  induction as with
  | nil => exact id
  | cons a as ih => exact (hw a).comp ih

end Writes

/-! ### Readers -/

/-- From any state that holds `xs ++ rest`, `p` returns `a` and leaves `rest`. -/
def Reads (D : σ → List τ → Prop) (p : StateT σ (Except ε) α) (xs : List τ) (a : α) : Prop :=
  ∀ s rest, D s (xs ++ rest) → ∃ s', p s = .ok (a, s') ∧ D s' rest

namespace Reads

variable {D : σ → List τ → Prop} {p : StateT σ (Except ε) α} {xs ys : List τ} {a : α}

theorem pure (a : α) : Reads (ε := ε) D (Pure.pure a) [] a := by
  intro s rest h
  exact ⟨s, rfl, h⟩

theorem bind {f : α → StateT σ (Except ε) β} {b : β} (hp : Reads D p xs a)
    (hf : Reads D (f a) ys b) : Reads D (p >>= f) (xs ++ ys) b := by
  intro s rest h
  rw [List.append_assoc] at h
  obtain ⟨s₁, e₁, h₁⟩ := hp s _ h
  obtain ⟨s₂, e₂, h₂⟩ := hf s₁ rest h₁
  refine ⟨s₂, ?_, h₂⟩
  change (p s >>= fun r => f r.1 r.2) = _
  rw [e₁]
  exact e₂

theorem bind_pure {f : α → StateT σ (Except ε) β} {b : β} (hp : Reads D p xs a)
    (hf : f a = Pure.pure b) : Reads D (p >>= f) xs b := by
  have hb : Reads D (f a) [] b := by
    rw [hf]
    exact Reads.pure b
  simpa using hp.bind hb

theorem map (g : α → β) (hp : Reads D p xs a) : Reads D (g <$> p) xs (g a) := by
  intro s rest h
  obtain ⟨s₁, e₁, h₁⟩ := hp s rest h
  refine ⟨s₁, ?_, h₁⟩
  change (p s >>= fun r => Pure.pure (g r.1, r.2)) = _
  rw [e₁]
  rfl

theorem mapM {p : β → StateT σ (Except ε) α} {enc : β → List τ} {val : β → α} (hp : ∀ b, Reads D (p b) (enc b) (val b))
    (bs : List β) : Reads D (bs.mapM p) (bs.flatMap enc) (bs.map val) := by
  induction bs with
  | nil => exact pure []
  | cons b bs ih =>
    rw [List.mapM_cons]
    exact (hp b).bind (ih.bind_pure rfl)

end Reads

/-- Turn the error of a reader into another one (`Result::map_err`). -/
def mapErr (f : ε → ε') (p : StateT σ (Except ε) α) : StateT σ (Except ε') α :=
  fun s => (p s).mapError f

theorem Reads.mapErr {D : σ → List τ → Prop} {p : StateT σ (Except ε) α} {xs : List τ} {a : α}
    (f : ε → ε') (hp : Reads D p xs a) : Reads D (mapErr f p) xs a := by
  intro s rest h
  obtain ⟨s₁, e₁, h₁⟩ := hp s rest h
  exact ⟨s₁, by rw [Codec.mapErr, e₁]; rfl, h₁⟩

end Codec
