/-
Library/Metered.lean

Readers of a token stream that count what they allocate.

Design.  A reader fails or succeeds, and either way leaves what it has not read and the meter. Four
judgements, each with one rule for a sequence and one for a loop:

* `ReadsIf P p xs a`: on input that starts with `xs` the reader `p` returns `a` and consumes `xs` if
  `P` holds, and fails if it does not;
* `Ensures p Q`: what `p` returns satisfies `Q`;
* `Follows R p q`: where `p` succeeds, the plain reader `q` reads the same tokens, to a value in the relation `R`;
* `Pays k i p o`: a token read is worth `k` units, and with `i` units in hand `p` never allocates
  more than it has; `o` is what it has left.
-/
import ValkeyTimeSeries.Library.Codec

structure Metered (τ : Type) where
  buf : List τ
  used : Nat

def MeteredReader (ε τ α : Type) : Type := Metered τ → Except ε α × Metered τ

namespace MeteredReader

open Codec

variable {ε ε' τ α β ι : Type}

instance : Monad (MeteredReader ε τ) where
  pure a := fun s => (.ok a, s)
  bind p f := fun s =>
    match p s with
    | (.ok a, s) => f a s
    | (.error e, s) => (.error e, s)

def fail (e : ε) : MeteredReader ε τ α := fun s => (.error e, s)

def allocate (n : Nat) : MeteredReader ε τ Unit := fun s => (.ok (), { s with used := s.used + n })

def remaining : MeteredReader ε τ Nat := fun s => (.ok s.buf.length, s)

def require (cond : Prop) [Decidable cond] (e : ε) : MeteredReader ε τ Unit :=
  if cond then pure () else fail e

/-- A reader that allocates nothing. -/
def lift (f : ε' → ε) (p : StateT (List τ) (Except ε') α) : MeteredReader ε τ α := fun s =>
  match p s.buf with
  | .ok (a, rest) => (.ok a, { s with buf := rest })
  | .error e => (.error (f e), s)

/-- Run a body `n` times over an accumulator. -/
def iterate : Nat → (β → MeteredReader ε τ β) → β → MeteredReader ε τ β
  | 0, _, acc => pure acc
  | n + 1, body, acc => do
      let acc ← body acc
      iterate n body acc

variable {p : MeteredReader ε τ α} {f : α → MeteredReader ε τ β} {s s' : Metered τ} {a : α} {e : ε}

theorem bind_ok (h : p s = (.ok a, s')) : (p >>= f) s = f a s' := by
  change (match p s with
    | (.ok a, s) => f a s
    | (.error e, s) => (.error e, s)) = _
  rw [h]

theorem bind_error (h : p s = (.error e, s')) : (p >>= f) s = (.error e, s') := by
  change (match p s with
    | (.ok a, s) => f a s
    | (.error e, s) => (.error e, s)) = _
  rw [h]

/-! ### Reading what was written -/

/-- On input that starts with `xs`, `p` returns `a` and leaves the rest if `P` holds, and fails if it
does not. -/
def ReadsIf (P : Prop) (p : MeteredReader ε τ α) (xs : List τ) (a : α) : Prop :=
  ∀ rest used, (P → ∃ used', p ⟨xs ++ rest, used⟩ = (.ok a, ⟨rest, used'⟩)) ∧
    (¬ P → ∃ e s, p ⟨xs ++ rest, used⟩ = (.error e, s))

namespace ReadsIf

variable {P Q : Prop} {xs ys : List τ} {b : β}

theorem pure (a : α) : ReadsIf (ε := ε) True (Pure.pure a) ([] : List τ) a :=
  fun _ used => ⟨fun _ => ⟨used, rfl⟩, fun h => absurd trivial h⟩

theorem allocate (n : Nat) : ReadsIf (ε := ε) True (allocate n) ([] : List τ) () :=
  fun _ used => ⟨fun _ => ⟨used + n, rfl⟩, fun h => absurd trivial h⟩

theorem require (cond : Prop) [Decidable cond] (e : ε) : ReadsIf cond (require cond e) ([] : List τ) () := by
  intro rest used
  refine ⟨fun h => ⟨used, ?_⟩, fun h => ⟨e, ⟨rest, used⟩, ?_⟩⟩
  · rw [MeteredReader.require, if_pos h]
    rfl
  · rw [MeteredReader.require, if_neg h]
    rfl

theorem lift {q : StateT (List τ) (Except ε') α} (f : ε' → ε) (h : Reads Eq q xs a) :
    ReadsIf True (MeteredReader.lift f q) xs a := by
  intro rest used
  refine ⟨fun _ => ⟨used, ?_⟩, fun hf => absurd trivial hf⟩
  obtain ⟨rest', hread, rfl⟩ := h _ rest rfl
  rw [MeteredReader.lift, hread]

theorem bind (hp : ReadsIf P p xs a) (hf : ReadsIf Q (f a) ys b) : ReadsIf (P ∧ Q) (p >>= f) (xs ++ ys) b := by
  intro rest used
  rw [List.append_assoc]
  obtain ⟨hpok, hperr⟩ := hp (ys ++ rest) used
  refine ⟨fun ⟨hP, hQ⟩ => ?_, fun hPQ => ?_⟩
  · obtain ⟨used₁, hread⟩ := hpok hP
    rw [bind_ok hread]
    exact (hf rest used₁).1 hQ
  · by_cases hP : P
    · obtain ⟨used₁, hread⟩ := hpok hP
      rw [bind_ok hread]
      exact (hf rest used₁).2 fun hQ => hPQ ⟨hP, hQ⟩
    · obtain ⟨e, s, hread⟩ := hperr hP
      exact ⟨e, s, bind_error hread⟩

theorem bind_nil (hp : ReadsIf P p [] a) (hf : ReadsIf Q (f a) ys b) : ReadsIf (P ∧ Q) (p >>= f) ys b :=
  hp.bind hf

theorem congr (h : ReadsIf P p xs a) (hiff : P ↔ Q) (hxs : xs = ys) : ReadsIf Q p ys a := by
  subst hxs
  exact fun rest used =>
    ⟨fun hQ => (h rest used).1 (hiff.mpr hQ), fun hQ => (h rest used).2 fun hP => hQ (hiff.mp hP)⟩

/-- The condition of a loop: each item's in its turn. -/
def Each (P : β → ι → Prop) (next : β → ι → β) : β → List ι → Prop
  | _, [] => True
  | acc, item :: items => P acc item ∧ Each P next (next acc item) items

theorem each_append {P : β → ι → Prop} {next : β → ι → β} {items items' : List ι} {acc : β} :
    Each P next acc (items ++ items') ↔ Each P next acc items ∧ Each P next (items.foldl next acc) items' := by
  induction items generalizing acc with
  | nil => simp [Each]
  | cons item items ih => simp only [List.cons_append, Each, ih, List.foldl_cons, and_assoc]

theorem each_const {P : ι → Prop} {next : β → ι → β} {items : List ι} {acc : β} :
    Each (fun _ item => P item) next acc items ↔ ∀ item ∈ items, P item := by
  induction items generalizing acc with
  | nil => simp [Each]
  | cons item items ih => simp [Each, ih]

theorem iterate (body : β → MeteredReader ε τ β) (P : β → ι → Prop) (next : β → ι → β) (enc : ι → List τ)
    {items : List ι} (h : ∀ acc, ∀ item ∈ items, ReadsIf (P acc item) (body acc) (enc item) (next acc item)) (acc : β) :
    ReadsIf (Each P next acc items) (iterate items.length body acc) (items.flatMap enc) (items.foldl next acc) := by
  induction items generalizing acc with
  | nil => exact ReadsIf.pure acc
  | cons item items ih =>
    exact (h acc item (List.mem_cons_self)).bind
      (ih (fun acc item hmem => h acc item (List.mem_cons_of_mem _ hmem)) _)

end ReadsIf

/-! ### What a reader returns -/

def Ensures (p : MeteredReader ε τ α) (Q : α → Prop) : Prop := ∀ s a s', p s = (.ok a, s') → Q a

namespace Ensures

variable {Q : α → Prop} {R : β → Prop}

theorem pure (h : Q a) : Ensures (Pure.pure a : MeteredReader ε τ α) Q := by
  intro s a' s' heq
  cases heq
  exact h

theorem require (cond : Prop) [Decidable cond] (e : ε) :
    Ensures (require cond e : MeteredReader ε τ Unit) fun _ => cond := by
  intro s a s' heq
  rw [MeteredReader.require] at heq
  split at heq
  · assumption
  · cases heq

theorem bind (hp : Ensures p Q) (hf : ∀ a, Q a → Ensures (f a) R) : Ensures (p >>= f) R := by
  intro s b s' heq
  cases hps : p s with
  | mk r s₁ =>
    cases r with
    | ok a =>
      rw [bind_ok hps] at heq
      exact hf a (hp s a s₁ hps) s₁ b s' heq
    | error e =>
      rw [bind_error hps] at heq
      cases heq

theorem trivial (p : MeteredReader ε τ α) : Ensures p fun _ => True := fun _ _ _ _ => True.intro

theorem iterate {body : β → MeteredReader ε τ β} (h : ∀ acc, R acc → Ensures (body acc) R) (n : Nat) {acc : β}
    (hacc : R acc) : Ensures (iterate n body acc) R := by
  induction n generalizing acc with
  | zero => exact Ensures.pure hacc
  | succ n ih => exact (h acc hacc).bind fun acc hacc => ih hacc

end Ensures

/-! ### A reader without checks -/

abbrev PlainReader (τ : Type) : Type → Type := StateT (List τ) Option

def PlainReader.times (q : PlainReader τ β) : Nat → PlainReader τ (List β)
  | 0 => pure []
  | n + 1 => do
      let item ← q
      let items ← q.times n
      pure (item :: items)

def Follows (R : α → β → Prop) (p : MeteredReader ε τ α) (q : PlainReader τ β) : Prop :=
  ∀ s a s', p s = (.ok a, s') → ∃ b, q s.buf = some (b, s'.buf) ∧ R a b

/-- The reader looks at the input, at most. -/
def Stays (p : MeteredReader ε τ α) : Prop := ∀ s a s', p s = (.ok a, s') → s'.buf = s.buf

theorem Stays.allocate (n : Nat) : Stays (allocate n : MeteredReader ε τ Unit) := by
  intro s a s' h
  cases h
  rfl

theorem Stays.remaining : Stays (remaining : MeteredReader ε τ Nat) := by
  intro s a s' h
  cases h
  rfl

theorem Stays.require (cond : Prop) [Decidable cond] (e : ε) : Stays (require cond e : MeteredReader ε τ Unit) := by
  intro s a s' h
  rw [MeteredReader.require] at h
  split at h
  · cases h
    rfl
  · cases h

theorem ok_of_bind {b : β} (h : (p >>= f) s = (.ok b, s')) : ∃ a s₁, p s = (.ok a, s₁) ∧ f a s₁ = (.ok b, s') := by
  cases hps : p s with
  | mk r s₁ =>
    cases r with
    | ok a => exact ⟨a, s₁, rfl, (bind_ok hps).symm.trans h⟩
    | error e =>
      rw [bind_error hps] at h
      cases h

theorem Stays.bind (hp : Stays p) (hf : ∀ a, Stays (f a)) : Stays (p >>= f) := by
  intro s b s' h
  obtain ⟨a, s₁, hpa, hfb⟩ := ok_of_bind h
  exact (hf a _ _ _ hfb).trans (hp _ _ _ hpa)

namespace Follows

variable {γ δ : Type} {R : α → γ → Prop} {S : β → δ → Prop} {q : PlainReader τ γ} {g : γ → PlainReader τ δ}

theorem pure {c : γ} (h : R a c) : Follows R (Pure.pure a : MeteredReader ε τ α) (Pure.pure c) := by
  intro s a' s' heq
  cases heq
  exact ⟨c, rfl, h⟩

theorem bind (hp : Follows R p q) (hf : ∀ a c, R a c → Follows S (f a) (g c)) : Follows S (p >>= f) (q >>= g) := by
  intro s b s' h
  obtain ⟨a, s₁, hpa, hfb⟩ := ok_of_bind h
  obtain ⟨c, hq, hac⟩ := hp s a s₁ hpa
  obtain ⟨d, hg, hbd⟩ := hf a c hac s₁ b s' hfb
  refine ⟨d, ?_, hbd⟩
  change (q s.buf).bind _ = _
  rw [hq]
  exact hg

/-- What comes after reading need not be in the plain reader. -/
theorem bind_last {S : β → γ → Prop} (hp : Follows R p q) (hf : ∀ a c, R a c → Follows S (f a) (Pure.pure c)) :
    Follows S (p >>= f) q := by
  have h := hp.bind hf
  rwa [bind_pure] at h

theorem skip {q : PlainReader τ δ} (hp : Stays p) (hf : ∀ a, Follows S (f a) q) : Follows S (p >>= f) q := by
  intro s b s' h
  obtain ⟨a, s₁, hpa, hfb⟩ := ok_of_bind h
  rw [← hp s a s₁ hpa]
  exact hf a s₁ b s' hfb

theorem lift (h : ε' → ε) (r : StateT (List τ) (Except ε') α) :
    Follows Eq (lift h r) fun buf => (r buf).toOption := by
  intro s a s' heq
  rw [MeteredReader.lift] at heq
  split at heq
  · next hr =>
      cases heq
      exact ⟨a, congrArg Except.toOption hr, rfl⟩
  · cases heq

/-- A loop collects what the plain reader lists. -/
theorem iterate {body : β → MeteredReader ε τ β} {q : PlainReader τ γ} {C : β → List γ → Prop}
    (h : ∀ acc items, C acc items → Follows (fun acc item => C acc (items ++ [item])) (body acc) q) (n : Nat) {acc : β}
    (items : List γ) (hacc : C acc items) :
    Follows (fun acc more => C acc (items ++ more)) (iterate n body acc) (q.times n) := by
  induction n generalizing acc items with
  | zero => exact Follows.pure (by rwa [List.append_nil])
  | succ n ih =>
    refine (h acc items hacc).bind fun acc item hitem => ?_
    intro s acc' s' heq
    obtain ⟨more, hmore, hC⟩ := ih _ hitem s acc' s' heq
    refine ⟨item :: more, ?_, by rwa [List.append_assoc] at hC⟩
    change (q.times n s.buf).bind _ = _
    rw [hmore]
    rfl

end Follows

/-! ### What a reader allocates -/

/-- With `i` units in hand and `k` more for each token it reads, `p` pays for all it allocates, and has
`o` units left where it succeeds. -/
def Pays (k i : Nat) (p : MeteredReader ε τ α) (o : α → Nat) : Prop := ∀ s,
  match p s with
  | (.ok a, s') => s'.used + k * s'.buf.length + o a ≤ s.used + k * s.buf.length + i
  | (.error _, s') => s'.used + k * s'.buf.length ≤ s.used + k * s.buf.length + i

namespace Pays

variable {k i j : Nat} {o : α → Nat} {o' : β → Nat}

theorem pure (a : α) (h : o a ≤ i) : Pays k i (Pure.pure a : MeteredReader ε τ α) o := by
  intro s
  change s.used + k * s.buf.length + o a ≤ _
  omega

theorem fail (e : ε) : Pays k i (fail e : MeteredReader ε τ α) o := by
  intro s
  change s.used + k * s.buf.length ≤ _
  omega

theorem require (cond : Prop) [Decidable cond] (e : ε) :
    Pays k i (require cond e : MeteredReader ε τ Unit) fun _ => i := by
  rw [MeteredReader.require]
  split
  · exact Pays.pure () le_rfl
  · exact Pays.fail e

theorem remaining : Pays k i (remaining : MeteredReader ε τ Nat) fun _ => i := fun _ => le_rfl

theorem allocate {n : Nat} (h : n ≤ i) : Pays k i (allocate n : MeteredReader ε τ Unit) fun _ => i - n := by
  intro s
  change s.used + n + k * s.buf.length + (i - n) ≤ _
  omega

theorem bind (hp : Pays k i p o) (hf : ∀ a, Pays k (o a) (f a) o') : Pays k i (p >>= f) o' := by
  intro s
  have hps := hp s
  cases hrun : p s with
  | mk r s₁ =>
    rw [hrun] at hps
    cases r with
    | error e =>
      rw [bind_error hrun]
      exact hps
    | ok a =>
      rw [bind_ok hrun]
      have hfs := hf a s₁
      cases hrun₂ : f a s₁ with
      | mk r₂ s₂ =>
        rw [hrun₂] at hfs
        cases r₂ with
        | ok b =>
          omega
        | error e =>
          omega

/-- What follows a check may use it. -/
theorem require_bind {cond : Prop} [Decidable cond] {e : ε} {g : Unit → MeteredReader ε τ β}
    (h : cond → Pays k i (g ()) o') : Pays k i (MeteredReader.require cond e >>= g) o' := by
  rw [MeteredReader.require]
  split
  · next hc => exact h hc
  · exact Pays.fail e

/-- Keep less than is left. -/
theorem weaken {o₂ : α → Nat} (h : Pays k i p o) (ho : ∀ a, o₂ a ≤ o a) : Pays k i p o₂ := by
  intro s
  have hs := h s
  cases hrun : p s with
  | mk r s₁ =>
    rw [hrun] at hs
    cases r with
    | ok a =>
      have := ho a
      omega
    | error e => exact hs

/-- A plain reader earns what it consumes. -/
theorem lift {q : StateT (List τ) (Except ε') α} (g : ε' → ε) {w : α → Nat}
    (h : ∀ buf a rest, q buf = .ok (a, rest) → rest.length + w a ≤ buf.length) :
    Pays k i (lift g q) fun a => i + k * w a := by
  intro s
  rw [MeteredReader.lift]
  cases hq : q s.buf with
  | error e =>
    omega
  | ok r =>
    have hle := Nat.mul_le_mul_left k (h _ _ _ hq)
    rw [Nat.mul_add] at hle
    dsimp only
    omega

/-- A loop whose body pays for itself. -/
theorem iterate {body : β → MeteredReader ε τ β} (h : ∀ acc, Pays k i (body acc) fun _ => i) (n : Nat) (acc : β) :
    Pays k i (iterate n body acc) fun _ => i := by
  induction n generalizing acc with
  | zero => exact Pays.pure acc le_rfl
  | succ n ih => exact (h acc).bind fun acc => ih acc

/-- A program that starts with nothing in hand. -/
theorem bound (h : Pays k 0 p o) (buf : List τ) : (p ⟨buf, 0⟩).2.used ≤ k * buf.length := by
  have hs := h ⟨buf, 0⟩
  cases hrun : p ⟨buf, 0⟩ with
  | mk r s₁ =>
    rw [hrun] at hs
    cases r with
    | ok a =>
      dsimp only at hs ⊢
      omega
    | error e =>
      dsimp only at hs ⊢
      omega

end Pays

end MeteredReader
