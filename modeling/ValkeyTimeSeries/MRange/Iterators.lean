/-
MRange/Iterators.lean

The row streams of a multi-series range query (`iterators/*.rs`, `aggregators/partial_reducer.rs`).

A row is a timestamp and a payload: one value, or one value per aggregation column.  The payload is a type
variable, as the code has every iterator twice.  The reducers group consecutive rows with equal timestamps and
differ only in what they accumulate (`Reduction`).

Each reducer is a table of its input in the sense of `Truncation.Tabulates`, provided the input is ordered:
this is what the k-way merge and the stable sort establish.
-/
import ValkeyTimeSeries.Library.Truncation
import ValkeyTimeSeries.Aggregators.PartialReducer

namespace ValkeyTimeSeries.MRange

open List Truncation Aggregators

variable {ι ν σ ω : Type}

/-! ### Limits -/

/-- `TailIter`: the last `capacity` items, by a buffer that drops its front when it is full. -/
def tailIter (capacity : Nat) (items : List ι) : List ι :=
  if capacity = 0 then []
  else items.foldl (fun buf item => (if buf.length = capacity then buf.tail else buf) ++ [item]) []

inductive SampleLimit where
  | head (n : Nat)
  | tail (n : Nat)
deriving DecidableEq

def SampleLimit.apply : SampleLimit → List ι → List ι
  | .head n, items => items.take n
  | .tail n, items => tailIter n items

/-- `collect_rows` and `collect_samples`: COUNT in the requested order. -/
def collectRows (items : List ι) (isReverse : Bool) (count : Option Nat) : List ι :=
  if isReverse then
    (match count with
      | some count => tailIter count items
      | none => items).reverse
  else
    match count with
    | some count => items.take count
    | none => items

theorem tailIter_eq (n : Nat) (items : List ι) : tailIter n items = items.drop (items.length - n) := by
  unfold tailIter
  split
  · next h => rw [h, Nat.sub_zero, drop_length]
  · next h =>
      -- The buffer holds the last `n` of what was read.
      induction items using List.reverseRecOn with
      | nil => rw [foldl_nil, drop_nil]
      | append_singleton items item ih =>
        rw [foldl_append, foldl_cons, foldl_nil, ih, length_append, length_singleton, length_drop]
        split
        · next hfull =>
            rw [tail_drop, drop_append_of_le_length (by omega)]
            congr 2
            omega
        · next hroom =>
            rw [drop_append_of_le_length (by omega)]
            congr 2
            omega

theorem reverse_tailIter (n : Nat) (items : List ι) : (tailIter n items).reverse = items.reverse.take n := by
  rw [tailIter_eq, take_reverse]

/-! ### Merging streams -/

/-- The least head of several streams, by timestamp and then by position, and the streams
without it. -/
def popMin : List (List (Int × ν)) → Option ((Int × ν) × List (List (Int × ν)))
  | [] => none
  | [] :: rest => (popMin rest).map fun (y, rest) => (y, [] :: rest)
  | (x :: xs) :: rest =>
    match popMin rest with
    | none => some (x, xs :: rest)
    | some (y, rest') => if x.1 ≤ y.1 then some (x, xs :: rest) else some (y, (x :: xs) :: rest')

/-- `next`, until the heap is empty; the heap holds the head of every stream that has one. -/
def drain : Nat → List (List (Int × ν)) → List (Int × ν)
  | 0, _ => []
  | fuel + 1, streams =>
    match popMin streams with
    | none => []
    | some (x, streams) => x :: drain fuel streams

def multiSeriesIter (streams : List (List (Int × ν))) : List (Int × ν) := drain streams.flatten.length streams

/-- `sort_by_key(Reverse(timestamp))`. -/
def sortReverse (rows : List (Int × ν)) : List (Int × ν) := rows.mergeSort fun a b => b.1 ≤ a.1

/-! ### Reducers -/

/-- What a reducer accumulates over the rows of one timestamp. -/
structure Reduction (ν σ ω : Type) where
  init : σ
  update : Int → σ → ν → σ
  finalize : σ → ω

/-- Group consecutive rows with equal timestamps; the option holds the open group. -/
def reduceFrom (r : Reduction ν σ ω) : Option (Int × σ) → List (Int × ν) → List (Int × ω)
  | none, [] => []
  | some (ts, s), [] => [(ts, r.finalize s)]
  | none, row :: rows => reduceFrom r (some (row.1, r.update row.1 r.init row.2)) rows
  | some (ts, s), row :: rows =>
    if row.1 = ts then reduceFrom r (some (ts, r.update ts s row.2)) rows
    else (ts, r.finalize s) :: reduceFrom r (some (row.1, r.update row.1 r.init row.2)) rows

def reduceRows (r : Reduction ν σ ω) (rows : List (Int × ν)) : List (Int × ω) := reduceFrom r none rows

def Reduction.run (r : Reduction ν σ ω) (ts : Int) (values : List ν) : ω :=
  r.finalize (values.foldl (r.update ts) r.init)

/-- What `SampleReducer` uses of an aggregator; an update says whether it took the value. -/
structure Handler (α σ : Type) where
  reset : σ
  update : Int → σ → α → σ × Bool
  finalize : σ → α
  emptyGroupValue : σ → α

/-- `SampleReducer`: the flag is `has_samples`. -/
def Handler.reduction {α : Type} (h : Handler α σ) : Reduction α (σ × Bool) α where
  init := (h.reset, false)
  update ts s value := ((h.update ts s.1 value).1, s.2 || (h.update ts s.1 value).2)
  finalize s := if s.2 then h.finalize s.1 else h.emptyGroupValue s.1

section Reducers

variable {α : Type} [Arith α]

/-- `SampleReducer` and `ReduceIterator` over one of the aggregators. -/
def sampleReducer (aggregator : Aggregator α) : Reduction α (Aggregator α × Bool) α where
  init := (aggregator.reset, false)
  update _ s value := feed s value
  finalize := finalizeGroup

def partialSampleReducer (reducer : PartialReducer α) : Reduction α (PartialState α) (PartialState α) where
  init := .default
  update ts s value := reducer.update s ts value
  finalize s := s

end Reducers

/-- `RowReducer` and `PartialRowReducer`: each column on its own. -/
def Reduction.columns (r : Reduction ν σ ω) (columns : Nat) : Reduction (List ν) (List σ) (List ω) where
  init := List.replicate columns r.init
  update ts states values := List.zipWith (r.update ts) states values
  finalize states := states.map r.finalize

/-! ### What the merges give -/

/-- A row was taken out of a list of streams: from the first stream that has a least head. -/
structure Popped (x : Int × ν) (streams rest : List (List (Int × ν))) : Prop where
  split : ∃ before xs after, streams = before ++ (x :: xs) :: after ∧ rest = before ++ xs :: after ∧
    ∀ l ∈ before, ∀ y ∈ l.head?, x.1 < y.1
  least : ∀ l ∈ streams, ∀ y ∈ l.head?, x.1 ≤ y.1

variable {streams : List (List (Int × ν))}

theorem popMin_none (h : popMin streams = none) : streams.flatten = [] := by
  induction streams with
  | nil => rfl
  | cons l streams ih =>
    cases l with
    | nil =>
      rw [popMin, Option.map_eq_none_iff] at h
      exact ih h
    | cons x xs =>
      rw [popMin] at h
      split at h
      · cases h
      · split at h <;> cases h

theorem popMin_some {rest : List (List (Int × ν))} {x : Int × ν} (h : popMin streams = some (x, rest)) :
    Popped x streams rest := by
  induction streams generalizing x rest with
  | nil => cases h
  | cons l streams ih =>
    cases l with
    | nil =>
      rw [popMin, Option.map_eq_some_iff] at h
      obtain ⟨⟨y, rest'⟩, hpop, heq⟩ := h
      obtain ⟨rfl, rfl⟩ := Prod.mk.inj heq
      obtain ⟨⟨before, xs, after, hs, hr, hbefore⟩, hleast⟩ := ih hpop
      refine ⟨⟨[] :: before, xs, after, by rw [hs]; rfl, by rw [hr]; rfl, ?_⟩, ?_⟩
      · exact forall_mem_cons.mpr ⟨fun y hy => absurd hy (Option.not_mem_none y), hbefore⟩
      · exact forall_mem_cons.mpr ⟨fun y hy => absurd hy (Option.not_mem_none y), hleast⟩
    | cons z zs =>
      rw [popMin] at h
      split at h
      · next hnone =>
          obtain ⟨rfl, rfl⟩ := Prod.mk.inj (Option.some.inj h)
          refine ⟨⟨[], zs, streams, rfl, rfl, fun _ h => by cases h⟩, ?_⟩
          refine forall_mem_cons.mpr ⟨fun y hy => ?_, fun l hl y hy => ?_⟩
          · exact (Option.mem_some_iff.mp hy) ▸ le_rfl
          · have hy : y ∈ streams.flatten := mem_flatten_of_mem hl (mem_of_mem_head? hy)
            rw [popMin_none hnone] at hy
            cases hy
      · next y rest' hpop =>
          obtain ⟨⟨before, xs, after, hs, hr, hbefore⟩, hleast⟩ := ih hpop
          split at h
          · next hle =>
              obtain ⟨rfl, rfl⟩ := Prod.mk.inj (Option.some.inj h)
              refine ⟨⟨[], zs, streams, rfl, rfl, fun _ h => by cases h⟩, ?_⟩
              refine forall_mem_cons.mpr ⟨fun w hw => ?_, fun l hl w hw => hle.trans (hleast l hl w hw)⟩
              exact (Option.mem_some_iff.mp hw) ▸ le_rfl
          · next hlt =>
              obtain ⟨rfl, rfl⟩ := Prod.mk.inj (Option.some.inj h)
              have hyz : y.1 < z.1 := not_le.mp hlt
              refine ⟨⟨(z :: zs) :: before, xs, after, by rw [hs]; rfl, by rw [hr]; rfl, ?_⟩, ?_⟩
              · refine forall_mem_cons.mpr ⟨fun w hw => ?_, hbefore⟩
                exact (Option.mem_some_iff.mp hw) ▸ hyz
              · refine forall_mem_cons.mpr ⟨fun w hw => ?_, hleast⟩
                exact (Option.mem_some_iff.mp hw) ▸ hyz.le

section Popped

variable {x : Int × ν} {streams rest : List (List (Int × ν))}

theorem head_le {l : List (Int × ν)} (hl : Ascending (· < ·) l) {y : Int × ν} (hy : y ∈ l) :
    ∃ z ∈ l.head?, z.1 ≤ y.1 := by
  cases l with
  | nil => cases hy
  | cons z zs =>
    refine ⟨z, rfl, ?_⟩
    rcases mem_cons.mp hy with rfl | hy
    · exact le_rfl
    · exact ((pairwise_cons.mp hl).1 y hy).le

variable (h : Popped x streams rest)
include h

theorem Popped.ascending (hs : ∀ l ∈ streams, Ascending (· < ·) l) :
    ∀ l ∈ rest, Ascending (· < ·) l := by
  obtain ⟨before, xs, after, rfl, rfl, _⟩ := h.split
  intro l hl
  rcases mem_append.mp hl with hl | hl
  · exact hs l (mem_append_left _ hl)
  · rcases mem_cons.mp hl with rfl | hl
    · exact (pairwise_cons.mp (hs (x :: l) (by simp))).2
    · exact hs l (by simp [hl])

theorem Popped.le (hs : ∀ l ∈ streams, Ascending (· < ·) l) :
    ∀ y ∈ rest.flatten, x.1 ≤ y.1 := by
  intro y hy
  have hmem : y ∈ streams.flatten := by
    obtain ⟨before, xs, after, rfl, rfl, _⟩ := h.split
    simp only [flatten_append, mem_append] at hy ⊢
    tauto
  obtain ⟨l, hl, hy⟩ := mem_flatten.mp hmem
  obtain ⟨z, hz, hzy⟩ := head_le (hs l hl) hy
  exact (h.least l hl z hz).trans hzy

/-- The row that was taken is the first one with its timestamp. -/
theorem Popped.valuesAt (hs : ∀ l ∈ streams, Ascending (· < ·) l) (ts : Int) :
    Truncation.valuesAt ts (x :: rest.flatten) = Truncation.valuesAt ts streams.flatten := by
  obtain ⟨before, xs, after, rfl, rfl, hbefore⟩ := h.split
  rw [flatten_append, flatten_append, flatten_cons, flatten_cons, cons_append]
  by_cases hts : x.1 = ts
  · have hnone : Truncation.valuesAt ts before.flatten = [] := by
      refine valuesAt_eq_nil_iff.mpr fun hmem => ?_
      obtain ⟨y, hy, heq⟩ := mem_map.mp hmem
      obtain ⟨l, hl, hy⟩ := mem_flatten.mp hy
      obtain ⟨z, hz, hzy⟩ := head_le (hs l (mem_append_left _ hl)) hy
      have := hbefore l hl z hz
      omega
    obtain ⟨t, v⟩ := x
    subst hts
    simp only [valuesAt_append, valuesAt_cons_self, hnone, nil_append]
  · simp only [valuesAt_append, valuesAt_cons_ne hts]

theorem Popped.length : streams.flatten.length = rest.flatten.length + 1 := by
  obtain ⟨before, xs, after, rfl, rfl, _⟩ := h.split
  simp only [flatten_append, flatten_cons, length_append, length_cons]
  omega

end Popped

/-- The merge orders the rows and keeps those of one timestamp in the order of the streams. -/
theorem drain_spec {fuel : Nat} (hfuel : fuel = streams.flatten.length) (hs : ∀ l ∈ streams, Ascending (· < ·) l) :
    Ordered (· < ·) (drain fuel streams) ∧ ∀ ts, valuesAt ts (drain fuel streams) = valuesAt ts streams.flatten := by
  induction fuel generalizing streams with
  | zero =>
    rw [eq_nil_of_length_eq_zero hfuel.symm]
    exact ⟨List.Pairwise.nil, fun _ => rfl⟩
  | succ fuel ih =>
    rw [drain]
    split
    · next hnone =>
        rw [popMin_none hnone]
        exact ⟨List.Pairwise.nil, fun _ => rfl⟩
    · next x rest hpop =>
        have hpopped := popMin_some hpop
        obtain ⟨hordered, hvalues⟩ := ih (by have := hpopped.length; omega) (hpopped.ascending hs)
        refine ⟨pairwise_cons.mpr ⟨fun y hy => ?_, hordered⟩, fun ts => ?_⟩
        · have hmem : y.1 ∈ rest.flatten.map Prod.fst :=
            (mem_keys_congr hvalues y.1).mp (mem_map_of_mem hy)
          obtain ⟨z, hz, heq⟩ := mem_map.mp hmem
          exact (heq ▸ hpopped.le hs z hz).eq_or_lt
        · rw [← hpopped.valuesAt hs]
          unfold valuesAt at hvalues ⊢
          rw [filter_cons, filter_cons]
          split
          · rw [map_cons, map_cons, hvalues]
          · exact hvalues ts

theorem multiSeriesIter_ordered (hs : ∀ l ∈ streams, Ascending (· < ·) l) :
    Ordered (· < ·) (multiSeriesIter streams) := (drain_spec rfl hs).1

theorem valuesAt_multiSeriesIter (hs : ∀ l ∈ streams, Ascending (· < ·) l)
    (ts : Int) : valuesAt ts (multiSeriesIter streams) = valuesAt ts streams.flatten := (drain_spec rfl hs).2 ts

private theorem later_trans (a b c : Int × ν) (hab : decide (b.1 ≤ a.1) = true) (hbc : decide (c.1 ≤ b.1) = true) :
    decide (c.1 ≤ a.1) = true := by
  simp only [decide_eq_true_eq] at *
  omega

private theorem later_total (a b : Int × ν) : (decide (b.1 ≤ a.1) || decide (a.1 ≤ b.1)) = true := by
  simp only [Bool.or_eq_true, decide_eq_true_eq]
  omega

theorem sortReverse_ordered (rows : List (Int × ν)) : Ordered (fun a b : Int => b < a) (sortReverse rows) := by
  refine (pairwise_mergeSort later_trans later_total rows).imp fun hab => ?_
  rw [decide_eq_true_eq] at hab
  omega

/-- The sort is stable. -/
theorem valuesAt_sortReverse (ts : Int) (rows : List (Int × ν)) :
    valuesAt ts (sortReverse rows) = valuesAt ts rows := by
  have hsame : (rows.filter fun e => e.1 = ts).Pairwise fun a b => decide (b.1 ≤ a.1) = true := by
    refine pairwise_of_forall_mem_list fun a ha b hb => ?_
    have ha := (mem_filter.mp ha).2
    have hb := (mem_filter.mp hb).2
    simp only [decide_eq_true_eq] at *
    omega
  have hsub : (rows.filter fun e => e.1 = ts).Sublist (sortReverse rows) :=
    sublist_mergeSort later_trans later_total hsame filter_sublist
  have hfilter := hsub.filter fun e => decide (e.1 = ts)
  rw [filter_filter] at hfilter
  simp only [Bool.and_self] at hfilter
  have hlen := ((mergeSort_perm rows fun a b => decide (b.1 ≤ a.1)).filter fun e => decide (e.1 = ts)).length_eq
  exact congrArg (List.map Prod.snd) (hfilter.eq_of_length hlen.symm).symm

/-! ### What the reducers give -/

/-- With a group open, the rest of the stream is reduced as if the group's rows stood before it. -/
theorem reduceFrom_tabulates {r : Int → Int → Prop} [Std.Asymm r] (red : Reduction ν σ ω) {ts : Int} {seen : List ν}
    (hseen : seen ≠ []) {rows : List (Int × ν)} (hrows : Ordered r rows) (hts : ∀ row ∈ rows, ts = row.1 ∨ r ts row.1) :
    Tabulates r red.run (seen.map (ts, ·) ++ rows) (reduceFrom red (some (ts, seen.foldl (red.update ts) red.init))
    rows) := by
  induction rows generalizing ts seen with
  | nil => exact tabulates_nil.cons hseen fun _ h => by cases h
  | cons row rows ih =>
    obtain ⟨hfirst, hrest⟩ := pairwise_cons.mp hrows
    rw [reduceFrom]
    split
    · next heq =>
        subst heq
        have hstep := ih (append_ne_nil_of_right_ne_nil seen (cons_ne_nil row.2 [])) hrest hfirst
        rwa [foldl_append, map_append, append_assoc] at hstep
    · next hne =>
        have hlt : r ts row.1 := (hts row mem_cons_self).resolve_left (Ne.symm hne)
        have hstep := ih (cons_ne_nil row.2 []) hrest hfirst
        refine Tabulates.cons hstep hseen fun e he => ?_
        have := hts e he
        refine this.resolve_left fun heq => ?_
        -- a later row cannot go back to the closed timestamp
        rcases mem_cons.mp he with rfl | he
        · exact hne heq.symm
        · rcases hfirst e he with h | h
          · exact hne (h.trans heq.symm)
          · exact asymm_of r hlt (heq ▸ h)

theorem reduceRows_tabulates {r : Int → Int → Prop} [Std.Asymm r] (red : Reduction ν σ ω) {rows : List (Int × ν)}
    (hrows : Ordered r rows) : Tabulates r red.run rows (reduceRows red rows) := by
  cases rows with
  | nil => exact tabulates_nil
  | cons row rows =>
    obtain ⟨hfirst, hrest⟩ := pairwise_cons.mp hrows
    exact reduceFrom_tabulates red (cons_ne_nil row.2 []) hrest hfirst

/-! ### Groups of series -/

section Handler

variable {α : Type} (h : Handler α σ)

def Handler.folded (ts : Int) (values : List α) : σ := values.foldl (fun s value => (h.update ts s value).1) h.reset

def Handler.Accepts (ts : Int) (values : List α) : Prop :=
  ∃ before value after, values = before ++ value :: after ∧ (h.update ts (h.folded ts before) value).2 = true

theorem Handler.foldl_update (ts : Int) (values : List α) :
    (values.foldl (h.reduction.update ts) h.reduction.init).1 = h.folded ts values ∧
    ((values.foldl (h.reduction.update ts) h.reduction.init).2 = true ↔ h.Accepts ts values) := by
  induction values using List.reverseRecOn with
  | nil =>
    refine ⟨rfl, iff_of_false Bool.false_ne_true ?_⟩
    rintro ⟨before, value, after, heq, -⟩
    simp at heq
  | append_singleton values last ih =>
    obtain ⟨hstate, hflag⟩ := ih
    rw [Handler.folded, foldl_append, foldl_append]
    refine ⟨?_, ?_⟩
    · rw [foldl_cons, foldl_cons, ← Handler.folded, ← hstate]
      rfl
    · change (_ || _) = true ↔ _
      rw [Bool.or_eq_true, hflag, hstate]
      constructor
      · rintro (⟨before, value, after, rfl, hvalue⟩ | hlast)
        · exact ⟨before, value, after ++ [last], by simp, hvalue⟩
        · exact ⟨values, last, [], rfl, hlast⟩
      · rintro ⟨before, value, after, heq, hvalue⟩
        rcases eq_nil_or_concat after with rfl | ⟨front, x, rfl⟩
        · obtain ⟨rfl, hlast⟩ := append_inj' heq rfl
          cases hlast
          exact .inr hvalue
        · rw [concat_eq_append, ← cons_append, ← append_assoc] at heq
          exact .inl ⟨before, value, front, (append_inj' heq rfl).1, hvalue⟩

/-- **Merged and reduced streams**: one row for each timestamp of a stream, in order, with the aggregator
folded over the values there, or its value for an empty group where it takes none of them. -/
theorem reduce_multiSeriesIter {streams : List (List (Int × α))} (hs : ∀ l ∈ streams, Ascending (· < ·) l) :
    Ascending (· < ·) (reduceRows h.reduction (multiSeriesIter streams)) ∧
      (∀ ts, ts ∈ (reduceRows h.reduction (multiSeriesIter streams)).map Prod.fst ↔
        ∃ l ∈ streams, ts ∈ l.map Prod.fst) ∧ ∀ row ∈ reduceRows h.reduction (multiSeriesIter streams),
        (h.Accepts row.1 (streams.flatMap (valuesAt row.1)) →
          row.2 = h.finalize (h.folded row.1 (streams.flatMap (valuesAt row.1)))) ∧
        (¬ h.Accepts row.1 (streams.flatMap (valuesAt row.1)) →
          row.2 = h.emptyGroupValue (h.folded row.1 (streams.flatMap (valuesAt row.1)))) := by
  obtain ⟨hascending, hkeys, hvalue⟩ :=
    (reduceRows_tabulates h.reduction (multiSeriesIter_ordered hs)).congr
      fun ts => (valuesAt_multiSeriesIter hs ts).symm
  refine ⟨hascending, fun ts => ?_, fun row hrow => ?_⟩
  · rw [hkeys, map_flatten, mem_flatten]
    simp only [mem_map (f := List.map Prod.fst), exists_exists_and_eq_and]
  · have hrun := hvalue row hrow
    rw [valuesAt_flatten] at hrun
    obtain ⟨hstate, hflag⟩ := h.foldl_update row.1 (streams.flatMap (valuesAt row.1))
    refine ⟨fun hacc => ?_, fun hrejects => ?_⟩
    · rw [hrun, ← hstate]
      exact if_pos (hflag.mpr hacc)
    · rw [hrun, ← hstate]
      exact if_neg fun htrue => hrejects (hflag.mp htrue)

/-- Two streams that share a timestamp, with a reducer that adds up what is positive. -/
theorem reduce_multiSeriesIter_two :
    let positive : Handler Int Int := ⟨0, fun _ s v => if 0 < v then (s + v, true) else (s, false), id, fun _ => -1⟩
    let rows := reduceRows positive.reduction (multiSeriesIter [[(1, 2), (3, 0)], [(1, 5), (2, 4)]])
    rows = [(1, 7), (2, 4), (3, -1)] ∧ Ascending (· < ·) rows :=
  ⟨by decide, (reduce_multiSeriesIter _ (by simp [Ascending])).1⟩

end Handler

end ValkeyTimeSeries.MRange
