/-
Series/Lookup.lean

A sorted list of samples as a map from timestamps, and `get_sample` of the series.

Design.  What an operation does to a sorted list is said once for each timestamp: `sampleAt` after a put,
after a batch and after a deletion.  Two lists with the same lookups are equal.
-/
import ValkeyTimeSeries.Series.TimestampFilter

namespace ValkeyTimeSeries

open List SortedList DuplicatePolicy

section Lists

variable {l l' : List Sample} {ts : Int}

theorem Increasing.ext_sampleAt (h : Increasing l) (h' : Increasing l')
    (hat : ∀ ts, sampleAt ts l = sampleAt ts l') : l = l' := by
  refine h.ext h' fun x => ?_
  have hl := h.sampleAt_eq_some (t := x.timestamp) (x := x)
  rw [hat, h'.sampleAt_eq_some] at hl
  simpa using hl.symm

theorem timestamp_of_sampleAt {x : Sample} (h : sampleAt ts l = some x) : x.timestamp = ts := by
  simpa using find?_some h

theorem mem_of_sampleAt {x : Sample} (h : sampleAt ts l = some x) : x ∈ l := mem_of_find?_eq_some h

theorem Increasing.nodup (h : Increasing l) : (l.map (·.timestamp)).Nodup :=
  (pairwise_map.mpr h).imp ne_of_lt

theorem increasing_of_nodup (h : l.Pairwise fun a b => a.timestamp ≤ b.timestamp)
    (hnodup : (l.map (·.timestamp)).Nodup) : Increasing l :=
  (h.and (pairwise_map.mp hnodup)).imp fun hab => lt_of_le_of_ne hab.1 hab.2

/-- In a list with different timestamps a sample is found at its own. -/
theorem sampleAt_of_mem {x : Sample} (hnodup : (l.map (·.timestamp)).Nodup) (hx : x ∈ l) :
    sampleAt x.timestamp l = some x := by
  cases hat : sampleAt x.timestamp l with
  | none => exact absurd rfl (sampleAt_eq_none.mp hat x hx)
  | some y =>
    have hinj := inj_on_of_nodup_map hnodup (mem_of_sampleAt hat) hx (timestamp_of_sampleAt hat)
    rw [hinj]

theorem mem_timestamps : ts ∈ l.map (·.timestamp) ↔ sampleAt ts l ≠ none := by
  rw [ne_eq, sampleAt_eq_none, mem_map]
  push Not
  rfl

theorem sampleAt_append : sampleAt ts (l ++ l') = (sampleAt ts l).or (sampleAt ts l') := find?_append

theorem sampleAt_cons_self (x : Sample) : sampleAt x.timestamp (x :: l) = some x :=
  find?_cons_of_pos (by simp)

theorem sampleAt_cons_of_ne {x : Sample} (h : x.timestamp ≠ ts) : sampleAt ts (x :: l) = sampleAt ts l :=
  find?_cons_of_neg (by simpa using h)

theorem sampleAt_singleton (x : Sample) : sampleAt ts [x] = if x.timestamp = ts then some x else none := by
  split
  · rename_i h
    rw [← h, sampleAt_cons_self]
  · rename_i h
    rw [sampleAt_cons_of_ne h]
    rfl

/-- A filter on timestamps keeps or drops the one that is looked up. -/
theorem sampleAt_filter (p : Int → Bool) :
    sampleAt ts (l.filter fun x => p x.timestamp) = if p ts then sampleAt ts l else none := by
  induction l with
  | nil => split <;> rfl
  | cons x l ih =>
    by_cases hx : x.timestamp = ts
    · subst hx
      cases hp : p x.timestamp with
      | true =>
        rw [filter_cons_of_pos (p := fun x : Sample => p x.timestamp) hp, sampleAt_cons_self, sampleAt_cons_self,
          if_pos rfl]
      | false =>
        rw [hp] at ih
        rw [filter_cons_of_neg (by simp [hp]), ih]
        rfl
    · rw [sampleAt_cons_of_ne hx, ← ih]
      cases hp : p x.timestamp with
      | true => rw [filter_cons_of_pos (p := fun x : Sample => p x.timestamp) hp, sampleAt_cons_of_ne hx]
      | false => rw [filter_cons_of_neg (by simp [hp])]

theorem sampleAt_samplesOut (start endTs : Int) :
    sampleAt ts (samplesOut start endTs l) = if start ≤ ts ∧ ts ≤ endTs then none else sampleAt ts l := by
  have h : sampleAt ts (l.filter fun x => !decide (start ≤ x.timestamp ∧ x.timestamp ≤ endTs)) = _ :=
    sampleAt_filter fun t => !decide (start ≤ t ∧ t ≤ endTs)
  rw [samplesOut, h]
  by_cases hin : start ≤ ts ∧ ts ≤ endTs
  · rw [if_pos hin, decide_eq_true hin]
    rfl
  · rw [if_neg hin, decide_eq_false hin]
    rfl

theorem Increasing.getLast?_eq_some (h : Increasing l) {x : Sample} :
    l.getLast? = some x ↔ x ∈ l ∧ ∀ y ∈ l, y.timestamp ≤ x.timestamp := by
  constructor
  · intro hl
    refine ⟨mem_of_getLast? hl, fun y hy => ?_⟩
    obtain ⟨m, rfl⟩ := getLast?_eq_some_iff.mp hl
    rcases mem_append.mp hy with hy | hy
    · exact ((pairwise_append.mp h).2.2 y hy x mem_cons_self).le
    · rw [mem_singleton.mp hy]
  · rintro ⟨hx, hmax⟩
    cases hl : l.getLast? with
    | none =>
      rw [getLast?_eq_none_iff.mp hl] at hx
      cases hx
    | some z =>
      obtain ⟨m, rfl⟩ := getLast?_eq_some_iff.mp hl
      rcases mem_append.mp hx with hx | hx
      · have hlt := (pairwise_append.mp h).2.2 x hx z mem_cons_self
        have := hmax z (by simp)
        omega
      · rw [mem_singleton.mp hx]

end Lists

/-! ### Puts -/

section Puts

variable [FloatOps] {policy : DuplicatePolicy} {l : List Sample} {ts : Int}

/-- What a put leaves at its timestamp, given what was there. -/
def DuplicatePolicy.settle (policy : DuplicatePolicy) (new : Sample) : Option Sample → Sample
  | none => new
  | some old =>
    match policy.combine new old with
    | .ok stored => stored
    | .error _ => old

theorem settle_timestamp {new : Sample} {old : Option Sample} (h : ∀ x, old = some x → x.timestamp = new.timestamp) :
    (policy.settle new old).timestamp = new.timestamp := by
  cases old with
  | none => rfl
  | some old =>
    rw [DuplicatePolicy.settle]
    cases hc : policy.combine new old with
    | ok stored => exact (combine_timestamp hc).trans (h old rfl)
    | error e => exact h old rfl

theorem increasing_put (h : Increasing l) (x : Sample) : Increasing (policy.put x l) :=
  Sorted.putWith h fun _ _ => combine_timestamp

theorem increasing_putAll (h : Increasing l) (xs : List Sample) : Increasing (policy.putAll xs l) :=
  Sorted.putAll h fun _ _ _ => combine_timestamp

theorem sampleAt_put (h : Increasing l) (x : Sample) : sampleAt ts (policy.put x l)
    = if ts = x.timestamp then some (policy.settle x (sampleAt ts l)) else sampleAt ts l := by
  have hsplit (l₁ l₂ : List Sample) (y : Sample) (hts : ts ≠ y.timestamp) :
      sampleAt ts (l₁ ++ y :: l₂) = sampleAt ts (l₁ ++ l₂) := by
    rw [sampleAt_append, sampleAt_append, sampleAt_cons_of_ne hts.symm]
  have hfound (l₁ l₂ : List Sample) (y : Sample) (h₁ : ∀ b ∈ l₁, b.timestamp < x.timestamp)
      (hy : y.timestamp = x.timestamp) : sampleAt x.timestamp (l₁ ++ y :: l₂) = some y := by
    have hnone : sampleAt x.timestamp l₁ = none := sampleAt_eq_none.mpr fun b hb => (h₁ b hb).ne
    rw [sampleAt_append, hnone, Option.none_or, ← hy, sampleAt_cons_self]
  rw [DuplicatePolicy.put, putWith]
  cases h.sorted.place x.timestamp with
  | absent h₁ h₂ =>
    rename_i l₁ l₂
    rw [insertWith_new h₁ h₂]
    dsimp only
    split
    · rename_i hts
      subst hts
      have hnone : sampleAt x.timestamp (l₁ ++ l₂) = none := by
        exact sampleAt_eq_none.mpr (forall_mem_append.mpr ⟨fun b hb => (h₁ b hb).ne, fun b hb => (h₂ b hb).ne'⟩)
      rw [hfound l₁ l₂ x h₁ rfl, hnone]
      rfl
    · rename_i hts
      exact hsplit l₁ l₂ x hts
  | present h₁ hb h₂ =>
    rename_i l₁ l₂ b
    rw [insertWith_old h₁ hb]
    cases hc : policy.combine x b with
    | error e =>
      change sampleAt ts (l₁ ++ b :: l₂) = _
      split
      · rename_i hts
        subst hts
        rw [hfound l₁ l₂ b h₁ hb, DuplicatePolicy.settle, hc]
      · rfl
    | ok c =>
      have hct : c.timestamp = x.timestamp := (combine_timestamp hc).trans hb
      change sampleAt ts (l₁ ++ c :: l₂) = _
      split
      · rename_i hts
        subst hts
        rw [hfound l₁ l₂ c h₁ hct, hfound l₁ l₂ b h₁ hb, DuplicatePolicy.settle, hc]
      · rename_i hts
        rw [hsplit l₁ l₂ c (hct ▸ hts), hsplit l₁ l₂ b (hb ▸ hts)]

theorem outcome_settle (policy : DuplicatePolicy) (l : List Sample) (x : Sample) :
    policy.outcome l x = .ok (policy.settle x (sampleAt x.timestamp l))
    ∨ policy.outcome l x = .duplicate ∧ sampleAt x.timestamp l = some (policy.settle x (sampleAt x.timestamp l)) := by
  have hfind : (l.find? fun old => decide (old.timestamp = x.timestamp)) = sampleAt x.timestamp l := rfl
  unfold DuplicatePolicy.outcome
  rw [hfind]
  cases sampleAt x.timestamp l with
  | none => exact .inl rfl
  | some old =>
    rw [DuplicatePolicy.settle]
    dsimp only
    cases policy.combine x old with
    | ok stored => exact .inl rfl
    | error e => exact .inr ⟨rfl, rfl⟩

theorem upsert_eq_put {x : Sample} {l' : List Sample} (h : policy.upsert x l = .ok l') : l' = policy.put x l := by
  rw [DuplicatePolicy.upsert] at h
  rw [DuplicatePolicy.put, putWith, h]

variable (h : Increasing l)
include h

theorem sampleAt_of_upsert_error {x : Sample} {e : TsdbError} (he : policy.upsert x l = .error e) :
    sampleAt x.timestamp l ≠ none := by
  intro hnone
  rw [DuplicatePolicy.upsert] at he
  cases h.sorted.place x.timestamp with
  | absent h₁ h₂ =>
    rw [insertWith_new h₁ h₂] at he
    cases he
  | present h₁ hb h₂ => exact sampleAt_eq_none.mp hnone _ (by simp) hb

/-- With different timestamps each sample of a batch meets what was there before the batch. -/
theorem sampleAt_putAll {xs : List Sample} (hnodup : (xs.map (·.timestamp)).Nodup) : sampleAt ts (policy.putAll xs l)
      = match sampleAt ts xs with
        | none => sampleAt ts l
        | some x => some (policy.settle x (sampleAt ts l)) := by
  induction xs generalizing l with
  | nil => rfl
  | cons x xs ih =>
    obtain ⟨hx, hxs⟩ := nodup_cons.mp hnodup
    have hstep : policy.putAll (x :: xs) l = policy.putAll xs (policy.put x l) := rfl
    rw [hstep, ih (increasing_put h x) hxs, sampleAt_put h]
    by_cases hts : ts = x.timestamp
    · subst hts
      have hnone : sampleAt x.timestamp xs = none := by
        refine sampleAt_eq_none.mpr fun y hy heq => hx ?_
        change x.timestamp ∈ _
        rw [← heq]
        exact mem_map_of_mem hy
      rw [sampleAt_cons_self, hnone, if_pos rfl]
    · rw [sampleAt_cons_of_ne (Ne.symm hts), if_neg hts]

theorem sampleAt_putAll_of_mem {xs : List Sample} (hnodup : (xs.map (·.timestamp)).Nodup) {x : Sample} (hx : x ∈ xs) :
    sampleAt x.timestamp (policy.putAll xs l) = some (policy.settle x (sampleAt x.timestamp l)) := by
  rw [sampleAt_putAll h hnodup, sampleAt_of_mem hnodup hx]

theorem sampleAt_putAll_of_not_mem {xs : List Sample} (hnodup : (xs.map (·.timestamp)).Nodup)
    (ht : ts ∉ xs.map (·.timestamp)) : sampleAt ts (policy.putAll xs l) = sampleAt ts l := by
  rw [mem_timestamps, not_not] at ht
  rw [sampleAt_putAll h hnodup, ht]

/-- The order of a batch with different timestamps does not matter. -/
theorem putAll_perm {xs ys : List Sample} (hperm : xs.Perm ys)
    (hnodup : (xs.map (·.timestamp)).Nodup) : policy.putAll xs l = policy.putAll ys l := by
  have hnodup' : (ys.map (·.timestamp)).Nodup := (hperm.map _).nodup_iff.mp hnodup
  have hunique (zs : List Sample) (hz : (zs.map (·.timestamp)).Nodup) (t : Int) (x : Sample) :
      sampleAt t zs = some x ↔ x ∈ zs ∧ x.timestamp = t := by
    refine ⟨fun hx => ⟨mem_of_sampleAt hx, timestamp_of_sampleAt hx⟩, ?_⟩
    rintro ⟨hx, rfl⟩
    exact sampleAt_of_mem hz hx
  refine (increasing_putAll h xs).ext_sampleAt (increasing_putAll h ys) fun t => ?_
  have hat : sampleAt t xs = sampleAt t ys := by
    refine Option.ext fun x => ?_
    rw [hunique xs hnodup, hunique ys hnodup', hperm.mem_iff]
  rw [sampleAt_putAll h hnodup, sampleAt_putAll h hnodup', hat]

end Puts

/-! ### One sample of a series -/

namespace TimeSeries

variable [DecimalHelpers] {s : TimeSeries}

def errorFetchingSample : String := "TSDB: fetching sample"

def getSample (s : TimeSeries) (startTime : Int) : Except String (Option Sample) :=
  let (index, found) := getChunkIndex s.chunks startTime
  if found then
    match s.chunks[index]? with
    | none => .ok none
    | some chunk =>
      match chunk.getRange startTime startTime with
      | .error _ => .error errorFetchingSample
      | .ok samples => .ok samples.getLast?
  else .ok none

omit [DecimalHelpers] in
theorem samplesIn_point {l : List Sample} (h : Increasing l) (ts : Int) :
    (samplesIn ts ts l).getLast? = sampleAt ts l := by
  have hin : Increasing (samplesIn ts ts l) := h.sublist filter_sublist
  have hmem (x : Sample) : x ∈ samplesIn ts ts l ↔ x ∈ l ∧ x.timestamp = ts := by
    rw [samplesIn, mem_filter, decide_eq_true_eq]
    exact and_congr_right fun _ => ⟨fun hx => le_antisymm hx.2 hx.1, fun hx => ⟨hx.ge, hx.le⟩⟩
  refine Option.ext fun x => ?_
  rw [hin.getLast?_eq_some, h.sampleAt_eq_some, hmem]
  refine ⟨fun hx => hx.1, fun hx => ⟨hx, fun y hy => ?_⟩⟩
  rw [((hmem y).mp hy).2, hx.2]

theorem WF.getSample_eq (h : s.WF) (ts : Int) : s.getSample ts = .ok (sampleAt ts s.samples) := by
  have hchunks := h.chunks
  have hnone := h.sampleAt_none (t := ts)
  have hsome := fun c => h.sampleAt_chunk (t := ts) (c := c)
  have haround := hchunks.around ts
  rw [getSample]
  generalize s.chunks = cs at *
  cases haround with
  | inside h₁ hc hc' h₂ =>
    rename_i cs₁ cs₂ c
    have hmem : c ∈ cs₁ ++ c :: cs₂ := by simp
    have hok := hchunks.ok c hmem
    rw [getChunkIndex_of_mem hchunks hc hc', hsome c hmem ⟨hc, hc'⟩]
    simp only [if_true, getElem?_append_right (Nat.le_refl _), Nat.sub_self, getElem?_cons_zero, hok.getRange_eq]
    rw [samplesIn_point hok.run.increasing]
  | gap h₁ h₂ =>
    have hmiss := getChunkIndex_gap h₁ h₂ fun d hd => hchunks.first_le_last (mem_append_left _ hd)
    have hat := hnone fun d hd hin => by
      rcases mem_append.mp hd with hd | hd
      · have := h₁ d hd
        omega
      · have := h₂ d hd
        omega
    dsimp only
    rw [hmiss, if_neg Bool.false_ne_true, hat]

end TimeSeries

end ValkeyTimeSeries
