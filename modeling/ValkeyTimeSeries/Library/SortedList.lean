/-
Library/SortedList.lean

Lists that are strictly increasing in a key, as finite maps.

`insertWith` puts an element where its key belongs and hands an element that is already there to a combine
function, which may refuse.  Two facts make it usable on a map that is cut into pieces: an insertion passes
over a piece whose keys are all smaller, and does not look at a piece whose keys are all larger. `putWith` is
the insertion that keeps the map when the combine function refuses; `putAll` puts the elements of a list one
after the other.
-/
import Mathlib

namespace Except

variable {ε α β : Type} {x : Except ε α} {b : β}

theorem ok_of_bind {f : α → Except ε β} (h : x >>= f = .ok b) : ∃ a, x = .ok a ∧ f a = .ok b := by
  cases x with
  | error e => cases h
  | ok a => exact ⟨a, rfl, h⟩

theorem ok_of_map {f : α → β} (h : f <$> x = .ok b) : ∃ a, x = .ok a ∧ f a = b := by
  cases x with
  | error e => cases h
  | ok a => exact ⟨a, rfl, Except.ok.inj h⟩

end Except

theorem List.forall_mem_replace {α : Type} {p : α → Prop} {l₁ l₂ : List α} {a b : α} (h : ∀ x ∈ l₁ ++ a :: l₂, p x)
    (hb : p b) : ∀ x ∈ l₁ ++ b :: l₂, p x := by
  rw [List.forall_mem_append, List.forall_mem_cons] at h ⊢
  exact ⟨h.1, hb, h.2.2⟩

namespace SortedList

open List

variable {α κ ε : Type} [LinearOrder κ] (key : α → κ)

def Sorted (l : List α) : Prop := l.Pairwise fun a b => key a < key b

variable {key}

/-! ### Cutting at a key -/

/-- Where a predicate only ever turns false, taking while it holds is filtering. -/
theorem takeWhile_eq_filter {p : α → Bool} {l : List α}
    (h : l.Pairwise fun a b => p b = true → p a = true) : l.takeWhile p = l.filter p := by
  induction l with
  | nil => rfl
  | cons a l ih =>
    obtain ⟨ha, hl⟩ := pairwise_cons.mp h
    cases hp : p a with
    | true => rw [takeWhile_cons_of_pos hp, filter_cons_of_pos hp, ih hl]
    | false =>
      have hnone : l.filter p = [] := by
        refine filter_eq_nil_iff.mpr fun b hb hpb => ?_
        rw [ha b hb hpb] at hp
        cases hp
      rw [takeWhile_cons_of_neg (by simp [hp]), filter_cons_of_neg (by simp [hp]), hnone]

theorem dropWhile_eq_filter {p : α → Bool} {l : List α} (h : l.Pairwise fun a b => p b = true → p a = true) :
    l.dropWhile p = l.filter fun a => !p a := by
  induction l with
  | nil => rfl
  | cons a l ih =>
    obtain ⟨ha, hl⟩ := pairwise_cons.mp h
    cases hp : p a with
    | true => rw [dropWhile_cons_of_pos hp, filter_cons_of_neg (by simp [hp]), ih hl]
    | false =>
      have hall : (l.filter fun a => !p a) = l := by
        refine filter_eq_self.mpr fun b hb => ?_
        cases hpb : p b with
        | true =>
          rw [ha b hb hpb] at hp
          cases hp
        | false => rfl
      rw [dropWhile_cons_of_neg (by simp [hp]), filter_cons_of_pos (by simp [hp]), hall]

theorem takeWhile_dropWhile_append {p : α → Bool} {l₁ l₂ : List α} (h₁ : ∀ b ∈ l₁, p b = true)
    (h₂ : ∀ b ∈ l₂, p b = false) : (l₁ ++ l₂).takeWhile p = l₁ ∧ (l₁ ++ l₂).dropWhile p = l₂ := by
  rw [takeWhile_append_of_pos h₁, dropWhile_append_of_pos h₁]
  cases l₂ with
  | nil => exact ⟨append_nil _, rfl⟩
  | cons b l₂ =>
    have hneg : ¬ p b = true := by simp [h₂ b mem_cons_self]
    rw [takeWhile_cons_of_neg hneg, dropWhile_cons_of_neg hneg, append_nil]
    exact ⟨rfl, rfl⟩

/-- A sorted list is its part below a key followed by the rest. -/
theorem Sorted.split {l : List α} (h : Sorted key l) (k : κ) :
    l = (l.filter fun a => key a < k) ++ l.filter fun a => k ≤ key a := by
  have hmono : l.Pairwise fun a b => decide (key b < k) = true → decide (key a < k) = true := by
    refine h.imp fun {a b} hab hb => ?_
    rw [decide_eq_true_eq] at hb ⊢
    exact hab.trans hb
  have hdrop := dropWhile_eq_filter hmono
  rw [← takeWhile_eq_filter hmono]
  have hge : (l.filter fun a => decide (k ≤ key a)) = l.dropWhile fun a => decide (key a < k) := by
    rw [hdrop]
    refine filter_congr fun a _ => ?_
    rw [← decide_not]
    simp only [not_lt]
  rw [hge, takeWhile_append_dropWhile]

/-! ### Insertion -/

/-- Insert `a`; an element with its key is replaced by what `f` makes of it. -/
def insertWith (key : α → κ) (f : α → Except ε α) (a : α) : List α → Except ε (List α)
  | [] => .ok [a]
  | b :: l =>
    if key b < key a then (b :: ·) <$> insertWith key f a l
    else if key b = key a then (· :: l) <$> f b
    else .ok (a :: b :: l)

variable {f : α → Except ε α} {a : α} {l l₁ l₂ : List α}

theorem insertWith_ok (hf : ∀ b, ∃ c, f b = .ok c) : ∃ r, insertWith key f a l = .ok r := by
  induction l with
  | nil => exact ⟨_, rfl⟩
  | cons b l ih =>
    rw [insertWith]
    split
    · obtain ⟨r, hr⟩ := ih
      exact ⟨b :: r, by rw [hr]; rfl⟩
    · split
      · obtain ⟨c, hc⟩ := hf b
        exact ⟨c :: l, by rw [hc]; rfl⟩
      · exact ⟨_, rfl⟩

theorem insertWith_append_of_lt (h : ∀ b ∈ l₁, key b < key a) :
    insertWith key f a (l₁ ++ l₂) = (l₁ ++ ·) <$> insertWith key f a l₂ := by
  induction l₁ with
  | nil => exact (id_map (f := Except ε) (insertWith key f a l₂)).symm
  | cons b l₁ ih =>
    rw [cons_append, insertWith, if_pos (h b mem_cons_self), ih fun c hc => h c (mem_cons_of_mem _ hc)]
    cases insertWith key f a l₂ <;> rfl

theorem insertWith_append_of_gt (h : ∀ b ∈ l₂, key a < key b) :
    insertWith key f a (l₁ ++ l₂) = (· ++ l₂) <$> insertWith key f a l₁ := by
  induction l₁ with
  | nil =>
    cases l₂ with
    | nil => rfl
    | cons b l₂ =>
      have hlt := h b mem_cons_self
      rw [nil_append, insertWith, insertWith, if_neg hlt.le.not_gt, if_neg hlt.ne']
      rfl
  | cons b l₁ ih =>
    rw [cons_append, insertWith, insertWith, ih]
    split
    · cases insertWith key f a l₁ <;> rfl
    · split
      · cases f b <;> rfl
      · rfl

theorem insertWith_new (h₁ : ∀ b ∈ l₁, key b < key a) (h₂ : ∀ b ∈ l₂, key a < key b) :
    insertWith key f a (l₁ ++ l₂) = .ok (l₁ ++ a :: l₂) := by
  have hnil : insertWith key f a ([] ++ l₂) = (· ++ l₂) <$> insertWith key f a [] := insertWith_append_of_gt h₂
  rw [nil_append] at hnil
  rw [insertWith_append_of_lt h₁, hnil]
  rfl

theorem insertWith_concat (h : ∀ b ∈ l, key b < key a) : insertWith key f a l = .ok (l ++ [a]) := by
  have hnew : insertWith key f a (l ++ []) = .ok (l ++ [a]) := insertWith_new h (by simp)
  rwa [append_nil] at hnew

theorem insertWith_old {b : α} (h₁ : ∀ c ∈ l₁, key c < key a) (hb : key b = key a) :
    insertWith key f a (l₁ ++ b :: l₂) = (fun c => l₁ ++ c :: l₂) <$> f b := by
  rw [insertWith_append_of_lt h₁, insertWith, if_neg (not_lt.mpr hb.ge), if_pos hb]
  cases f b <;> rfl

/-- Where a key stands in a sorted list. -/
inductive Place (key : α → κ) (k : κ) : List α → Prop
  | absent {l₁ l₂ : List α} (h₁ : ∀ b ∈ l₁, key b < k) (h₂ : ∀ b ∈ l₂, k < key b) :
      Place key k (l₁ ++ l₂)
  | present {l₁ l₂ : List α} {b : α} (h₁ : ∀ c ∈ l₁, key c < k) (hb : key b = k)
      (h₂ : ∀ c ∈ l₂, k < key c) : Place key k (l₁ ++ b :: l₂)

theorem Sorted.place (h : Sorted key l) (k : κ) : Place key k l := by
  rw [h.split k]
  have hlow : ∀ b ∈ l.filter fun a => decide (key a < k), key b < k := by
    intro b hb
    simpa using (mem_filter.mp hb).2
  have hsorted : Sorted key (l.filter fun a => decide (k ≤ key a)) := h.sublist filter_sublist
  rcases hhigh : l.filter fun a => decide (k ≤ key a) with - | ⟨b, l₂⟩
  · exact .absent hlow (by simp)
  · have hb : k ≤ key b := by
      have hmem : b ∈ l.filter fun a => decide (k ≤ key a) := hhigh ▸ mem_cons_self
      simpa using (mem_filter.mp hmem).2
    rw [hhigh] at hsorted
    have hlater := (pairwise_cons.mp hsorted).1
    rcases hb.eq_or_lt with heq | hlt
    · exact .present hlow heq.symm fun c hc => heq ▸ hlater c hc
    · exact .absent hlow (forall_mem_cons.mpr ⟨hlt, fun c hc => hlt.trans (hlater c hc)⟩)

theorem Sorted.insertWith {r : List α} (h : Sorted key l) (hf : ∀ b c, f b = .ok c → key c = key b)
    (hr : insertWith key f a l = .ok r) : Sorted key r := by
  cases h.place (key a) with
  | absent h₁ h₂ =>
    rw [insertWith_new h₁ h₂] at hr
    obtain rfl := Except.ok.inj hr
    obtain ⟨hs₁, hs₂, hlt⟩ := pairwise_append.mp h
    refine pairwise_append.mpr ⟨hs₁, pairwise_cons.mpr ⟨h₂, hs₂⟩, fun b hb c hc => ?_⟩
    rcases mem_cons.mp hc with rfl | hc
    · exact h₁ b hb
    · exact hlt b hb c hc
  | present h₁ hb h₂ =>
    rename_i l₁ l₂ b
    rw [insertWith_old h₁ hb] at hr
    obtain ⟨c, hfb, rfl⟩ := Except.ok_of_map hr
    have hc := hf b c hfb
    obtain ⟨hs₁, hs₂, hlt⟩ := pairwise_append.mp h
    obtain ⟨-, hs₂⟩ := pairwise_cons.mp hs₂
    refine pairwise_append.mpr ⟨hs₁, pairwise_cons.mpr ⟨?_, hs₂⟩, fun d hd e he => ?_⟩
    · intro d hd
      rw [hc, hb]
      exact h₂ d hd
    · rcases mem_cons.mp he with rfl | he
      · rw [hc, hb]
        exact h₁ d hd
      · exact hlt d hd e (mem_cons_of_mem _ he)

theorem mem_map_insertWith {r : List α} (h : Sorted key l) (hf : ∀ b c, f b = .ok c → key c = key b)
    (hr : insertWith key f a l = .ok r) {k : κ} : k ∈ r.map key ↔ k = key a ∨ k ∈ l.map key := by
  cases h.place (key a) with
  | absent h₁ h₂ =>
    rw [insertWith_new h₁ h₂] at hr
    obtain rfl := Except.ok.inj hr
    simp only [map_append, map_cons, mem_append, mem_cons]
    tauto
  | present h₁ hb h₂ =>
    rename_i l₁ l₂ b
    rw [insertWith_old h₁ hb] at hr
    obtain ⟨c, hfb, rfl⟩ := Except.ok_of_map hr
    simp only [map_append, map_cons, mem_append, mem_cons, hf b c hfb, hb]
    tauto

theorem length_insertWith {r : List α} (hr : insertWith key f a l = .ok r) :
    l.length ≤ r.length ∧ r.length ≤ l.length + 1 := by
  induction l generalizing r with
  | nil =>
    obtain rfl := Except.ok.inj hr
    exact ⟨Nat.zero_le _, Nat.le_refl _⟩
  | cons b l ih =>
    rw [insertWith] at hr
    split at hr
    · obtain ⟨r', hl, rfl⟩ := Except.ok_of_map hr
      exact (ih hl).imp Nat.succ_le_succ Nat.succ_le_succ
    · split at hr
      · obtain ⟨c, hb, rfl⟩ := Except.ok_of_map hr
        exact ⟨Nat.le_refl _, Nat.le_succ _⟩
      · obtain rfl := Except.ok.inj hr
        exact ⟨Nat.le_succ _, Nat.le_refl _⟩

theorem insertWith_filter_le (h : Sorted key l) {k : κ} (hk : k ≤ key a) (hf : ∀ b c, f b = .ok c → key c = key b) :
    insertWith key f a (l.filter fun b => k ≤ key b) = (List.filter fun b => k ≤ key b) <$> insertWith key f a l := by
  have hlow : ∀ b ∈ l.filter fun b => decide (key b < k), key b < key a := by
    intro b hb
    have hbk : key b < k := by simpa using (mem_filter.mp hb).2
    exact hbk.trans_le hk
  have hnone : ((l.filter fun b => decide (key b < k)).filter fun b => decide (k ≤ key b)) = [] := by
    refine filter_eq_nil_iff.mpr fun b hb => ?_
    have hbk : key b < k := by simpa using (mem_filter.mp hb).2
    simpa using hbk
  conv_rhs => rw [h.split k, insertWith_append_of_lt hlow]
  cases hr : insertWith key f a (l.filter fun b => decide (k ≤ key b)) with
  | error e => rfl
  | ok r =>
    have hall : (r.filter fun b => decide (k ≤ key b)) = r := by
      refine filter_eq_self.mpr fun b hb => ?_
      have hsorted : Sorted key (l.filter fun a => decide (k ≤ key a)) :=
        h.sublist filter_sublist
      rcases (mem_map_insertWith hsorted hf hr).mp (mem_map_of_mem hb) with hkey | hmem
      · simpa [hkey] using hk
      · obtain ⟨c, hc, hkey⟩ := mem_map.mp hmem
        rw [← hkey]
        exact (mem_filter.mp hc).2
    change Except.ok r = Except.ok (List.filter _ (_ ++ r))
    rw [filter_append, hnone, hall, nil_append]

/-! ### Insertion that keeps what it cannot replace -/

/-- Insert `a`, or keep the list if the combine function refuses. -/
def putWith (key : α → κ) (f : α → Except ε α) (a : α) (l : List α) : List α :=
  match insertWith key f a l with
  | .ok r => r
  | .error _ => l

theorem putWith_append_of_lt (h : ∀ b ∈ l₁, key b < key a) : putWith key f a (l₁ ++ l₂) = l₁ ++ putWith key f a l₂ := by
  unfold putWith
  rw [insertWith_append_of_lt h]
  cases insertWith key f a l₂ <;> rfl

theorem putWith_append_of_gt (h : ∀ b ∈ l₂, key a < key b) : putWith key f a (l₁ ++ l₂) = putWith key f a l₁ ++ l₂ := by
  unfold putWith
  rw [insertWith_append_of_gt h]
  cases insertWith key f a l₁ <;> rfl

theorem Sorted.putWith (h : Sorted key l) (hf : ∀ b c, f b = .ok c → key c = key b) :
    Sorted key (putWith key f a l) := by
  unfold SortedList.putWith
  cases hr : SortedList.insertWith key f a l with
  | ok r => exact h.insertWith hf hr
  | error e => exact h

/-- Put the elements of a list one after the other; `f` is given the new one and
the old one. -/
def putAll (key : α → κ) (f : α → α → Except ε α) (as l : List α) : List α :=
  as.foldl (fun l a => putWith key (f a) a l) l

variable {g : α → α → Except ε α} {as : List α}

@[simp] theorem putAll_nil : putAll key g [] l = l := rfl

theorem putAll_cons : putAll key g (a :: as) l = putAll key g as (putWith key (g a) a l) := rfl

theorem putAll_append {as' : List α} : putAll key g (as ++ as') l = putAll key g as' (putAll key g as l) :=
  foldl_append

theorem putAll_append_of_lt (h : ∀ a ∈ as, ∀ b ∈ l₁, key b < key a) :
    putAll key g as (l₁ ++ l₂) = l₁ ++ putAll key g as l₂ := by
  induction as generalizing l₂ with
  | nil => rfl
  | cons a as ih =>
    rw [putAll_cons, putAll_cons, putWith_append_of_lt (h a mem_cons_self), ih fun c hc => h c (mem_cons_of_mem _ hc)]

theorem putAll_append_of_gt (h : ∀ a ∈ as, ∀ b ∈ l₂, key a < key b) :
    putAll key g as (l₁ ++ l₂) = putAll key g as l₁ ++ l₂ := by
  induction as generalizing l₁ with
  | nil => rfl
  | cons a as ih =>
    rw [putAll_cons, putAll_cons, putWith_append_of_gt (h a mem_cons_self), ih fun c hc => h c (mem_cons_of_mem _ hc)]

theorem Sorted.putAll (h : Sorted key l) (hg : ∀ a b c, g a b = .ok c → key c = key b) :
    Sorted key (putAll key g as l) := by
  induction as generalizing l with
  | nil => exact h
  | cons a as ih => exact ih (h.putWith (hg a))

theorem mem_map_putWith (h : Sorted key l) (hf : ∀ b c, f b = .ok c → key c = key b) {k : κ} :
    k ∈ (SortedList.putWith key f a l).map key ↔ k = key a ∨ k ∈ l.map key := by
  unfold SortedList.putWith
  cases hr : SortedList.insertWith key f a l with
  | ok r => exact mem_map_insertWith h hf hr
  | error e =>
    refine ⟨.inr, ?_⟩
    rintro (rfl | hk)
    · cases h.place (key a) with
      | absent h₁ h₂ =>
        rw [insertWith_new h₁ h₂] at hr
        cases hr
      | present h₁ hb h₂ =>
        rw [← hb]
        exact mem_map_of_mem (mem_append_right _ mem_cons_self)
    · exact hk

theorem mem_map_putAll (h : Sorted key l) (hg : ∀ a b c, g a b = .ok c → key c = key b) {k : κ} :
    k ∈ (SortedList.putAll key g as l).map key ↔ k ∈ as.map key ∨ k ∈ l.map key := by
  induction as generalizing l with
  | nil =>
    exact ⟨.inr, fun hk => hk.resolve_left not_mem_nil⟩
  | cons a as ih =>
    rw [putAll_cons, ih (h.putWith (hg a)), mem_map_putWith h (hg a), map_cons, mem_cons]
    tauto

theorem putAll_of_sorted (h : Sorted key as) : putAll key g as [] = as := by
  induction as with
  | nil => rfl
  | cons a as ih =>
    obtain ⟨ha, has⟩ := pairwise_cons.mp h
    have hput : SortedList.putWith key (g a) a [] = [a] ++ [] := rfl
    rw [putAll_cons, hput, putAll_append_of_lt (by simpa using ha), ih has]
    rfl

end SortedList
