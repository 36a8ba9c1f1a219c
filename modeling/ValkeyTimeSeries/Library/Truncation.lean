/-
Library/Truncation.lean

The first rows of a table that is put together from several row streams.

A table has one row for every key of its input, in key order, and the row's value is computed from the values
the input has under that key (`Tabulates`).  An input is a list of streams, and a stream may be cut to `n` rows
with keys of their own before all those it loses (`CleanCut`), as a stream with ordered keys may.  The first `n`
rows of the table do not change (`Tabulates.take_eq`), because a row that a stream loses has `n` keys of that
stream before it.
-/
import Mathlib

namespace Truncation

open List

variable {κ ν ω : Type} [DecidableEq κ] {r : κ → κ → Prop}

def Ascending (r : κ → κ → Prop) (l : List (κ × ν)) : Prop := l.Pairwise fun a b => r a.1 b.1

/-- Ordered keys, with repetitions. -/
def Ordered (r : κ → κ → Prop) (l : List (κ × ν)) : Prop := l.Pairwise fun a b => a.1 = b.1 ∨ r a.1 b.1

def valuesAt (k : κ) (l : List (κ × ν)) : List ν := (l.filter fun e => e.1 = k).map Prod.snd

/-- `rows` has one row for every key of `l`, in order, with `f` applied to the values
under the key. -/
structure Tabulates (r : κ → κ → Prop) (f : κ → List ν → ω) (l : List (κ × ν)) (rows : List (κ × ω)) : Prop where
  ascending : Ascending r rows
  mem_keys : ∀ k, k ∈ rows.map Prod.fst ↔ k ∈ l.map Prod.fst
  value : ∀ row ∈ rows, row.2 = f row.1 (valuesAt row.1 l)

/-! ### Values under a key -/

@[simp] theorem valuesAt_nil (k : κ) : valuesAt k ([] : List (κ × ν)) = [] := rfl

theorem valuesAt_cons_self (k : κ) (v : ν) (l : List (κ × ν)) : valuesAt k ((k, v) :: l) = v :: valuesAt k l := by
  simp [valuesAt]

theorem valuesAt_cons_ne {k : κ} {e : κ × ν} (h : e.1 ≠ k) (l : List (κ × ν)) : valuesAt k (e :: l) = valuesAt k l := by
  simp [valuesAt, h]

@[simp] theorem valuesAt_append (k : κ) (l l' : List (κ × ν)) :
    valuesAt k (l ++ l') = valuesAt k l ++ valuesAt k l' := by
  simp [valuesAt]

theorem valuesAt_flatten (k : κ) (ls : List (List (κ × ν))) : valuesAt k ls.flatten = ls.flatMap (valuesAt k) := by
  induction ls with
  | nil => rfl
  | cons l ls ih => rw [flatten_cons, valuesAt_append, ih, flatMap_cons]

theorem valuesAt_eq_nil_iff {k : κ} {l : List (κ × ν)} : valuesAt k l = [] ↔ k ∉ l.map Prod.fst := by
  simp only [valuesAt, map_eq_nil_iff, filter_eq_nil_iff, decide_eq_true_eq, mem_map, not_exists, not_and]

theorem mem_keys_congr {l l' : List (κ × ν)} (h : ∀ k, valuesAt k l' = valuesAt k l) (k : κ) :
    k ∈ l'.map Prod.fst ↔ k ∈ l.map Prod.fst := by
  rw [← not_iff_not, ← valuesAt_eq_nil_iff, ← valuesAt_eq_nil_iff, h k]

/-! ### Tables -/

section Tables

variable {f : κ → List ν → ω} {l l' : List (κ × ν)} {rows rows' : List (κ × ω)}

/-- A table depends on its input only through the values under each key. -/
theorem Tabulates.congr (h : Tabulates r f l rows) (hl : ∀ k, valuesAt k l' = valuesAt k l) :
    Tabulates r f l' rows where
  ascending := h.ascending
  mem_keys k := (h.mem_keys k).trans (mem_keys_congr hl k).symm
  value row hrow := by rw [h.value row hrow, hl]

theorem Tabulates.reverse (h : Tabulates r f l rows) : Tabulates (fun a b => r b a) f l rows.reverse where
  ascending := pairwise_reverse.mpr h.ascending
  mem_keys k := by rw [map_reverse, mem_reverse, h.mem_keys]
  value row hrow := h.value row (mem_reverse.mp hrow)

theorem Tabulates.map {ω' : Type} (h : Tabulates r f l rows) (g : ω → ω') :
    Tabulates r (fun k vs => g (f k vs)) l (rows.map fun row => (row.1, g row.2)) where
  ascending := pairwise_map.mpr h.ascending
  mem_keys k := by rw [map_map]; exact h.mem_keys k
  value row hrow := by
    obtain ⟨row, hmem, rfl⟩ := mem_map.mp hrow
    rw [h.value row hmem]

theorem tabulates_nil : Tabulates r f ([] : List (κ × ν)) [] :=
  ⟨List.Pairwise.nil, fun _ => Iff.rfl, fun _ h => absurd h not_mem_nil⟩

theorem Tabulates.eq_map (h : Tabulates r f l rows) :
    rows = (rows.map Prod.fst).map fun k => (k, f k (valuesAt k l)) := by
  rw [map_map]
  refine (map_id rows).symm.trans (map_congr_left fun row hrow => ?_)
  exact Prod.ext rfl (h.value row hrow)

variable [Std.Asymm r]

omit [DecidableEq κ] in
private theorem ne_of_rel {a b : κ} (h : r a b) : a ≠ b := by
  rintro rfl
  exact irrefl_of r a h

/-- Values under a key before all others become the first row. -/
theorem Tabulates.cons (h : Tabulates r f l rows) {k : κ} {vs : List ν} (hvs : vs ≠ [])
    (hk : ∀ e ∈ l, r k e.1) : Tabulates r f (vs.map (k, ·) ++ l) ((k, f k vs) :: rows) := by
  have hrows : ∀ row ∈ rows, r k row.1 := by
    intro row hrow
    obtain ⟨e, he, heq⟩ := mem_map.mp ((h.mem_keys row.1).mp (mem_map_of_mem hrow))
    exact heq ▸ hk e he
  have hfirst : valuesAt k (vs.map (k, ·) ++ l) = vs := by
    have hlater : valuesAt k l = [] := by
      refine valuesAt_eq_nil_iff.mpr fun hmem => ?_
      obtain ⟨e, he, heq⟩ := mem_map.mp hmem
      exact ne_of_rel (hk e he) heq.symm
    rw [valuesAt_append, hlater, append_nil]
    simp [valuesAt, filter_map]
  have hothers : ∀ k', k ≠ k' → valuesAt k' (vs.map (k, ·) ++ l) = valuesAt k' l := by
    intro k' hne
    rw [valuesAt_append, valuesAt_eq_nil_iff.mpr, nil_append]
    simpa using fun _ => hne.symm
  refine ⟨pairwise_cons.mpr ⟨hrows, h.ascending⟩, fun k' => ?_, fun row hrow => ?_⟩
  · rw [map_cons, mem_cons, h.mem_keys, map_append, mem_append]
    have hmap : k' ∈ (vs.map (k, ·)).map Prod.fst ↔ k' = k := by
      obtain ⟨v, vs, rfl⟩ := exists_cons_of_ne_nil hvs
      simp +contextual [eq_comm]
    rw [hmap]
  · rcases mem_cons.mp hrow with rfl | hrow
    · rw [hfirst]
    · rw [hothers row.1 (ne_of_rel (hrows row hrow))]
      exact h.value row hrow

/-! ### Cutting the input -/

omit [DecidableEq κ] in
/-- Of two ordered lists, one with all of its members in the other and with the other's
first `n`, the first `n` agree. -/
theorem take_eq_of_subset {as bs : List κ} (has : as.Pairwise r) (hbs : bs.Pairwise r) (hsub : bs ⊆ as) {n : Nat}
    (htake : as.take n ⊆ bs) : bs.take n = as.take n := by
  induction as generalizing bs n with
  | nil => rw [eq_nil_of_subset_nil hsub]
  | cons a as ih =>
    cases n with
    | zero => rfl
    | succ n =>
      obtain ⟨ha, has⟩ := pairwise_cons.mp has
      have hmem : a ∈ bs := htake mem_cons_self
      cases bs with
      | nil => cases hmem
      | cons b bs =>
        obtain ⟨hb, htail⟩ := pairwise_cons.mp hbs
        -- Both lists start with their least element.
        obtain rfl : a = b := by
          rcases mem_cons.mp hmem with heq | hlater
          · exact heq
          · rcases mem_cons.mp (hsub mem_cons_self) with heq | hlater'
            · exact heq.symm
            · exact absurd (ha b hlater') (asymm_of r (hb a hlater))
        rw [take_succ_cons, take_succ_cons]
        congr 1
        have hrest : bs ⊆ as := fun x hx =>
          (mem_cons.mp (hsub (mem_cons_of_mem _ hx))).resolve_left (ne_of_rel (hb x hx)).symm
        refine ih has htail hrest fun x hx => ?_
        have hx' := htake (mem_cons_of_mem _ hx)
        exact (mem_cons.mp hx').resolve_left (ne_of_rel (ha x (mem_of_mem_take hx))).symm

/-- A stream is cut at one of its ends, and what it loses comes after `n` keys that it keeps. -/
def CleanCut (r : κ → κ → Prop) (n : Nat) (l kept : List (κ × ν)) : Prop :=
  ∃ dropped, (l = kept ++ dropped ∨ l = dropped ++ kept) ∧ (dropped = [] ∨
    (kept.map Prod.fst).Nodup ∧ kept.length = n ∧ ∀ e ∈ kept, ∀ e' ∈ dropped, r e.1 e'.1)

omit [DecidableEq κ] in
/-- A key that comes after `n` others is not among the first `n` of a table. -/
theorem not_mem_take_of_after {ks : List κ} (hks : ks.Pairwise r) (kept : List κ) (hsub : kept ⊆ ks)
    (hnodup : kept.Nodup) {k : κ}
    (hafter : ∀ k' ∈ kept, r k' k) : k ∉ ks.take kept.length := by
  intro hk
  obtain ⟨i, hi, hki⟩ := mem_iff_getElem.mp hk
  rw [length_take] at hi
  -- the others stand before the `i`-th key
  have hearly : kept ⊆ ks.take i := by
    intro k' hk'
    have hlt := hafter k' hk'
    have hmem : k' ∈ ks.take i ++ ks.drop i := by
      rw [take_append_drop]
      exact hsub hk'
    refine (mem_append.mp hmem).resolve_right fun hlate => ?_
    have hi' : i < ks.length := lt_of_lt_of_le hi (Nat.min_le_right _ _)
    rw [getElem_take] at hki
    have hdropi := drop_eq_getElem_cons hi'
    rw [hki] at hdropi
    have hrest := hks.sublist (drop_sublist i ks)
    rw [hdropi] at hlate hrest
    rcases mem_cons.mp hlate with heq | hlate
    · exact ne_of_rel hlt heq
    · exact asymm_of r hlt ((pairwise_cons.mp hrest).1 _ hlate)
  have hle := (hnodup.subperm hearly).length_le
  rw [length_take] at hle
  omega

/-- The first `n` rows of a table need only what a clean cut leaves of every stream. -/
theorem Tabulates.take_eq {ls : List (List (κ × ν))} {cut : List (κ × ν) → List (κ × ν)} {n : Nat}
    (hls : ∀ l ∈ ls, CleanCut r n l (cut l)) (h : Tabulates r f ls.flatten rows)
    (h' : Tabulates r f (ls.map cut).flatten rows') : rows'.take n = rows.take n := by
  have hkeys : (rows.map Prod.fst).Pairwise r := pairwise_map.mpr h.ascending
  have hsub : ∀ l ∈ ls, ∀ e ∈ l, e.1 ∈ rows.map Prod.fst := fun l hl e he =>
    (h.mem_keys e.1).mpr (mem_map_of_mem (mem_flatten_of_mem hl he))
  have hkept : ∀ l ∈ ls, cut l ⊆ l := by
    intro l hl
    obtain ⟨dropped, hsplit | hsplit, -⟩ := hls l hl
    · nth_rewrite 2 [hsplit]
      exact subset_append_left _ _
    · nth_rewrite 2 [hsplit]
      exact subset_append_right _ _
  have hvalues : ∀ k ∈ (rows.map Prod.fst).take n, valuesAt k (ls.map cut).flatten = valuesAt k ls.flatten := by
    intro k hk
    rw [valuesAt_flatten, valuesAt_flatten, flatMap_map]
    refine flatMap_congr fun l hl => ?_
    obtain ⟨dropped, hsplit, hclean⟩ := hls l hl
    have hdrop : valuesAt k dropped = [] := by
      rcases hclean with rfl | ⟨hnodup, hlen, hbefore⟩
      · rfl
      · refine valuesAt_eq_nil_iff.mpr fun hmem => ?_
        obtain ⟨e, he, rfl⟩ := mem_map.mp hmem
        have hfar := not_mem_take_of_after hkeys ((cut l).map Prod.fst) (k := e.1) (fun k' hk' => ?_) hnodup
          fun k' hk' => ?_
        · rw [length_map, hlen] at hfar
          exact hfar hk
        · obtain ⟨e', he', rfl⟩ := mem_map.mp hk'
          exact hsub l hl e' (hkept l hl he')
        · obtain ⟨e', he', rfl⟩ := mem_map.mp hk'
          exact hbefore e' he' e he
    have hwhole : valuesAt k l = valuesAt k (cut l) := by
      rcases hsplit with hsplit | hsplit
      · rw [hsplit, valuesAt_append, hdrop, append_nil, ← hsplit]
      · rw [hsplit, valuesAt_append, hdrop, nil_append, ← hsplit]
    exact hwhole.symm
  have hfirst : (rows'.map Prod.fst).take n = (rows.map Prod.fst).take n := by
    refine take_eq_of_subset hkeys (pairwise_map.mpr h'.ascending) (fun k hk => ?_) fun k hk => ?_
    · obtain ⟨e, he, rfl⟩ := mem_map.mp ((h'.mem_keys k).mp hk)
      obtain ⟨l', hl', he⟩ := mem_flatten.mp he
      obtain ⟨l, hl, rfl⟩ := mem_map.mp hl'
      exact hsub l hl e (hkept l hl he)
    · refine (h'.mem_keys k).mpr (not_not.mp fun hnone => ?_)
      have hnone := valuesAt_eq_nil_iff.mpr hnone
      rw [hvalues k hk] at hnone
      exact valuesAt_eq_nil_iff.mp hnone ((h.mem_keys k).mp (mem_of_mem_take hk))
  calc rows'.take n = ((rows'.map Prod.fst).take n).map fun k => (k, f k (valuesAt k (ls.map cut).flatten)) := by
        rw [map_take, ← h'.eq_map]
    _ = ((rows.map Prod.fst).take n).map fun k => (k, f k (valuesAt k ls.flatten)) := by
        rw [hfirst]
        exact map_congr_left fun k hk => by rw [hvalues k hk]
    _ = rows.take n := by rw [map_take, ← h.eq_map]

end Tables

end Truncation
