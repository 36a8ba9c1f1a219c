/-
Common/Utf8.lean

Text as bytes: the check of `str::from_utf8` and the repair of `String::from_utf8_lossy`.

Design.  Both walk the bytes with the ranges still due in the character that was begun.  `valid` fails at the
first byte out of its range; `lossy` puts the replacement character for the part it has seen and begins anew
at that byte.
-/
import Mathlib

namespace ValkeyTimeSeries

open List

abbrev Bytes := List (BitVec 8)

namespace Utf8

def cont : Nat × Nat := (0x80, 0xBF)

/-- The ranges of the bytes that must follow a first byte. -/
def follow (first : BitVec 8) : Option (List (Nat × Nat)) :=
  let n := first.toNat
  if n < 0x80 then some []
  else if n < 0xC2 then none
  else if n < 0xE0 then some [cont]
  else if n = 0xE0 then some [(0xA0, 0xBF), cont]
  else if n = 0xED then some [(0x80, 0x9F), cont]
  else if n < 0xF0 then some [cont, cont]
  else if n = 0xF0 then some [(0x90, 0xBF), cont, cont]
  else if n < 0xF4 then some [cont, cont, cont]
  else if n = 0xF4 then some [(0x80, 0x8F), cont, cont]
  else none

def inRange (range : Nat × Nat) (b : BitVec 8) : Bool := range.1 ≤ b.toNat ∧ b.toNat ≤ range.2

/-- Well-formed text, after a character of which the ranges `due` are still to come. -/
def validFrom : List (Nat × Nat) → Bytes → Bool
  | due, [] => due.isEmpty
  | range :: due, b :: s => inRange range b && validFrom due s
  | [], b :: s =>
    match follow b with
    | some due => validFrom due s
    | none => false

def valid (s : Bytes) : Bool := validFrom [] s

def replacement : Bytes := [0xEF, 0xBF, 0xBD]

/-- The repaired text, after a character that began with `seen` and of which `due` is to come. -/
def lossyFrom : Bytes → List (Nat × Nat) → Bytes → Bytes
  | _, due, [] => if due.isEmpty then [] else replacement
  | seen, range :: due, b :: s =>
    if inRange range b then
      if due.isEmpty then seen ++ b :: lossyFrom [] [] s else lossyFrom (seen ++ [b]) due s
    else
      -- the byte that did not fit begins the next character
      replacement ++ match follow b with
        | some [] => b :: lossyFrom [] [] s
        | some due => lossyFrom [b] due s
        | none => replacement ++ lossyFrom [] [] s
  | _, [], b :: s =>
    match follow b with
    | some [] => b :: lossyFrom [] [] s
    | some due => lossyFrom [b] due s
    | none => replacement ++ lossyFrom [] [] s

def lossy (s : Bytes) : Bytes := lossyFrom [] [] s

/-! ### What is valid -/

variable {s : Bytes} {due : List (Nat × Nat)}

theorem validFrom_append (h : validFrom due s = true) (t : Bytes) : validFrom due (s ++ t) = valid t := by
  induction s generalizing due with
  | nil =>
    obtain rfl : due = [] := by simpa [validFrom] using h
    rfl
  | cons b s ih =>
    cases due with
    | nil =>
      simp only [cons_append, validFrom] at h ⊢
      cases hf : follow b with
      | none => rw [hf] at h; cases h
      | some due => rw [hf] at h; exact ih h
    | cons range due =>
      simp only [cons_append, validFrom, Bool.and_eq_true] at h ⊢
      rw [h.1, ih h.2, Bool.true_and]

theorem valid_append {t : Bytes} (hs : valid s = true) (ht : valid t = true) : valid (s ++ t) = true :=
  (validFrom_append hs t).trans ht

variable {b : BitVec 8}

theorem follow_ge (h : follow b = some due) : ∀ range ∈ due, 0x80 ≤ range.1 := by
  unfold follow at h
  dsimp only at h
  split_ifs at h <;> cases h <;> simp [cont]

/-- Text may be cut at a byte below `0x80`. -/
theorem validFrom_cut (hdue : ∀ range ∈ due, 0x80 ≤ range.1) {t : Bytes} {c : BitVec 8}
    (hc : c.toNat < 0x80) (h : validFrom due (s ++ c :: t) = true) : validFrom due s = true ∧ valid t = true := by
  induction s generalizing due with
  | nil =>
    cases due with
    | nil =>
      have hfollow : follow c = some [] := if_pos hc
      simp only [nil_append, validFrom, hfollow] at h
      exact ⟨rfl, h⟩
    | cons range due =>
      have hge := hdue range mem_cons_self
      simp only [nil_append, validFrom, inRange, Bool.and_eq_true, decide_eq_true_eq] at h
      omega
  | cons b s ih =>
    cases due with
    | nil =>
      simp only [cons_append, validFrom] at h ⊢
      cases hf : follow b with
      | none => rw [hf] at h; cases h
      | some due => rw [hf] at h; exact ih (follow_ge hf) h
    | cons range due =>
      simp only [cons_append, validFrom, Bool.and_eq_true] at h ⊢
      obtain ⟨hs, ht⟩ := ih (fun r hr => hdue r (mem_cons_of_mem _ hr)) h.2
      exact ⟨⟨h.1, hs⟩, ht⟩

/-- The bytes `seen` begin a character that `due` completes. -/
def Begins (seen : Bytes) (due : List (Nat × Nat)) : Prop := ∀ t, valid (seen ++ t) = validFrom due t

theorem Begins.of_follow (h : follow b = some due) : Begins [b] due := by
  intro t
  simp only [valid, cons_append, nil_append, validFrom, h]

theorem Begins.push {seen : Bytes} {range : Nat × Nat} (h : Begins seen (range :: due))
    (hb : inRange range b = true) : Begins (seen ++ [b]) due := by
  intro t
  rw [append_assoc, singleton_append, h, validFrom, hb, Bool.true_and]

theorem Begins.valid {seen : Bytes} (h : Begins seen []) : Utf8.valid seen = true := by
  have := h []
  rwa [append_nil] at this

/-! ### What the repair makes -/

private theorem valid_begin (h₀ : valid (lossyFrom [] [] s) = true)
    (ih : ∀ seen due, Begins seen due → due ≠ [] → valid (lossyFrom seen due s) = true) :
    valid (match follow b with
      | some [] => b :: lossyFrom [] [] s
      | some due => lossyFrom [b] due s
      | none => replacement ++ lossyFrom [] [] s) = true := by
  split
  · next hf => exact valid_append (Begins.of_follow hf).valid h₀
  · next due hne hf => exact ih _ _ (Begins.of_follow hf) hne
  · exact valid_append (by decide) h₀

theorem valid_lossyFrom (s : Bytes) : valid (lossyFrom [] [] s) = true ∧
    ∀ seen due, Begins seen due → due ≠ [] → valid (lossyFrom seen due s) = true := by
  induction s with
  | nil =>
    refine ⟨rfl, fun seen due _ hne => ?_⟩
    cases due with
    | nil => exact absurd rfl hne
    | cons range due => exact (by decide : valid replacement = true)
  | cons b s ih =>
    refine ⟨valid_begin ih.1 ih.2, fun seen due hseen hne => ?_⟩
    cases due with
    | nil => exact absurd rfl hne
    | cons range due =>
      rw [lossyFrom]
      split
      · next hb =>
          have hpush := hseen.push hb
          split
          · next hdue =>
              obtain rfl := isEmpty_iff.mp hdue
              rw [append_cons]
              exact valid_append hpush.valid ih.1
          · next hdue => exact ih.2 _ _ hpush fun h => hdue (h ▸ rfl)
      · exact valid_append (by decide) (valid_begin ih.1 ih.2)

theorem valid_lossy (s : Bytes) : valid (lossy s) = true := (valid_lossyFrom s).1

theorem lossyFrom_of_validFrom {seen : Bytes} (hseen : due = [] → seen = [])
    (h : validFrom due s = true) : lossyFrom seen due s = seen ++ s := by
  induction s generalizing seen due with
  | nil =>
    obtain rfl : due = [] := by simpa [validFrom] using h
    rw [hseen rfl]
    rfl
  | cons b s ih =>
    cases due with
    | nil =>
      rw [hseen rfl]
      simp only [validFrom, lossyFrom] at h ⊢
      cases hf : follow b with
      | none => rw [hf] at h; cases h
      | some due =>
        rw [hf] at h
        cases due with
        | nil => exact congrArg (b :: ·) (ih (fun _ => rfl) h)
        | cons range due => exact ih (fun h => by cases h) h
    | cons range due =>
      simp only [validFrom, Bool.and_eq_true] at h
      rw [lossyFrom, if_pos h.1]
      split
      · next hdue =>
          obtain rfl := isEmpty_iff.mp hdue
          rw [ih (fun _ => rfl) h.2, nil_append]
      · next hdue =>
          rw [ih (fun hd => absurd (hd ▸ rfl) hdue) h.2, append_assoc, singleton_append]

theorem lossy_of_valid (h : valid s = true) : lossy s = s :=
  lossyFrom_of_validFrom (fun _ => rfl) h

private theorem length_begin (h₀ : (lossyFrom [] [] s).length ≤ 3 * s.length)
    (ih : ∀ seen due, seen ≠ [] → (lossyFrom seen due s).length ≤ 3 * (seen.length + s.length)) :
    (match follow b with
      | some [] => b :: lossyFrom [] [] s
      | some due => lossyFrom [b] due s
      | none => replacement ++ lossyFrom [] [] s).length ≤ 3 * (s.length + 1) := by
  split
  · rw [length_cons]
    omega
  · next due _ _ =>
      have := ih [b] due (cons_ne_nil _ _)
      rw [length_singleton] at this
      omega
  · rw [length_append, show replacement.length = 3 from rfl]
    omega

theorem length_lossyFrom_le (s : Bytes) : (lossyFrom [] [] s).length ≤ 3 * s.length ∧
    ∀ seen due, seen ≠ [] → (lossyFrom seen due s).length ≤ 3 * (seen.length + s.length) := by
  induction s with
  | nil =>
    refine ⟨by decide, fun seen due hseen => ?_⟩
    have hpos : 0 < seen.length := length_pos_iff.mpr hseen
    rw [lossyFrom]
    split
    · exact Nat.zero_le _
    · rw [show replacement.length = 3 from rfl]
      omega
  | cons b s ih =>
    have hbegin := length_begin (b := b) ih.1 ih.2
    refine ⟨hbegin, fun seen due hseen => ?_⟩
    have hpos : 0 < seen.length := length_pos_iff.mpr hseen
    cases due with
    | nil =>
      refine hbegin.trans ?_
      rw [length_cons]
      omega
    | cons range due =>
      rw [lossyFrom]
      split
      · split
        · simp only [length_append, length_cons]
          omega
        · have := ih.2 (seen ++ [b]) due (by simp)
          simp only [length_append, length_cons, length_nil] at this ⊢
          omega
      · rw [length_append, length_cons]
        refine (Nat.add_le_add_left hbegin _).trans ?_
        rw [show replacement.length = 3 from rfl]
        omega

theorem length_lossy_le (s : Bytes) : (lossy s).length ≤ 3 * s.length := (length_lossyFrom_le s).1

end Utf8

/-- A `String` or a `str`: bytes that are well-formed text. -/
structure Str where
  bytes : Bytes
  valid : Utf8.valid bytes = true
deriving DecidableEq

namespace Str

theorem ext_bytes {s t : Str} (h : s.bytes = t.bytes) : s = t := by
  cases s
  cases t
  cases h
  rfl

def fromUtf8Lossy (s : Bytes) : Str := ⟨Utf8.lossy s, Utf8.valid_lossy s⟩

theorem fromUtf8Lossy_bytes (s : Str) : fromUtf8Lossy s.bytes = s := ext_bytes (Utf8.lossy_of_valid s.valid)

def append (s t : Str) : Str := ⟨s.bytes ++ t.bytes, Utf8.valid_append s.valid t.valid⟩

end Str

end ValkeyTimeSeries
