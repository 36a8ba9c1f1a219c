/-
Library/TopK.lean

The entries with the largest counts, taken from parts and from the whole.

Design.  `IsTop` is what a selection of the `k` largest entries guarantees, whichever way ties fall.  `Merges`
adds up what several parts sent, name by name.  A name is `Cut` if a part has it and does not send it. The
answer is `Exact` just if every cut name is outnumbered: there are `k` names that are not cut and whose totals
are no smaller.
-/
import Mathlib

namespace TopK

open List

variable {α κ : Type*} [DecidableEq κ] (name : α → κ) (count : α → Nat)

/-- What the entries of a name add up to. -/
def tally (l : List α) (n : κ) : Nat := (l.map fun a => if name a = n then count a else 0).sum

/-- `kept` are `k` entries of `l` with the largest counts, or all of them. -/
def IsTop (k : Nat) (kept l : List α) : Prop :=
  ∃ dropped, (kept ++ dropped).Perm l ∧ (∀ d ∈ dropped, ∀ e ∈ kept, count d ≤ count e) ∧ kept.length ≤ k ∧
    (dropped = [] ∨ kept.length = k)

/-- `merged` has one entry for each name that the lists have, with what its entries add up to. -/
structure Merges (lists : List (List α)) (merged : List α) : Prop where
  nodup : (merged.map name).Nodup
  names : ∀ n, n ∈ merged.map name ↔ ∃ l ∈ lists, n ∈ l.map name
  tally : ∀ n, tally name count merged n = (lists.map fun l => tally name count l n).sum

/-- What a name adds up to in the second lists of the parts, which are what the parts have. -/
def total (parts : List (List α × List α)) (n : κ) : Nat := (parts.map fun p => tally name count p.2 n).sum

/-- Whether some part has a name and does not send it. -/
def Cut (parts : List (List α × List α)) (n : κ) : Prop := ∃ p ∈ parts, n ∈ p.2.map name ∧ n ∉ p.1.map name

/-- For every name that is cut there are `k` others that are not and that are no smaller. -/
def Outnumbered (k : Nat) (parts : List (List α × List α)) : Prop :=
  ∀ n, Cut name parts n → ∃ names : List κ, names.Nodup ∧ names.length = k ∧
    ∀ m ∈ names, ¬ Cut name parts m ∧ total name count parts n ≤ total name count parts m

/-- `kept` are `k` names with the largest counts, or all names that count. -/
structure Leading (k : Nat) (counts : κ → Nat) (kept : List κ) : Prop where
  nodup : kept.Nodup
  length_le : kept.length ≤ k
  pos : ∀ n ∈ kept, 0 < counts n
  rest : ∀ n, 0 < counts n → n ∉ kept → kept.length = k ∧ ∀ m ∈ kept, counts n ≤ counts m

/-- What the counts of the parts add up to. -/
def sumAt {ι : Type*} (parts : List ι) (counts : ι → κ → Nat) (n : κ) : Nat := (parts.map fun i => counts i n).sum

/-- Whether some part counts a name and does not keep it. -/
def CutAt {ι : Type*} (parts : List ι) (counts : ι → κ → Nat) (kept : ι → List κ) (n : κ) : Prop :=
  ∃ i ∈ parts, 0 < counts i n ∧ n ∉ kept i

/-- Whichever way the parts break their ties, for every name that is cut there are `k` others that
are not and that are no smaller. -/
def AlwaysOutnumbered {ι : Type*} (k : Nat) (parts : List ι) (counts : ι → κ → Nat) : Prop :=
  ∀ kept : ι → List κ, (∀ i ∈ parts, Leading k (counts i) (kept i)) →
    ∀ n, CutAt parts counts kept n → ∃ names : List κ, names.Nodup ∧ names.length = k ∧
      ∀ m ∈ names, ¬ CutAt parts counts kept m ∧ sumAt parts counts n ≤ sumAt parts counts m

/-- No part has to cut a tie: its counts leave one choice of the names to keep. -/
def Decided {ι : Type*} (k : Nat) (parts : List ι) (counts : ι → κ → Nat) : Prop :=
  ∀ i ∈ parts, ∀ kept kept' : List κ, Leading k (counts i) kept → Leading k (counts i) kept' → kept ⊆ kept'

/-- Every entry has the total of its name, no name left out has a larger one, and names are left
out only of a full list. -/
structure Exact (total : κ → Nat) (k : Nat) (l : List α) : Prop where
  nodup : (l.map name).Nodup
  counts : ∀ e ∈ l, count e = total (name e)
  largest : ∀ n, n ∉ l.map name → ∀ e ∈ l, total n ≤ count e
  full : l.length = k ∨ ∀ n, 0 < total n → n ∈ l.map name

section

variable {name count} {k : Nat} {kept l : List α}

@[simp] theorem tally_nil (n : κ) : tally name count [] n = 0 := rfl

@[simp] theorem tally_cons (a : α) (l : List α) (n : κ) :
    tally name count (a :: l) n = (if name a = n then count a else 0) + tally name count l n := rfl

theorem tally_eq_zero {n : κ} (h : n ∉ l.map name) : tally name count l n = 0 := by
  induction l with
  | nil => rfl
  | cons a l ih =>
    rw [map_cons, mem_cons, not_or] at h
    rw [tally_cons, if_neg (Ne.symm h.1), ih h.2]

theorem tally_of_mem {a : α} (hnodup : (l.map name).Nodup) (ha : a ∈ l) : tally name count l (name a) = count a := by
  induction l with
  | nil => cases ha
  | cons b l ih =>
    rw [map_cons, nodup_cons] at hnodup
    rcases mem_cons.mp ha with rfl | ha
    · rw [tally_cons, if_pos rfl, tally_eq_zero hnodup.1, Nat.add_zero]
    · have hne : name b ≠ name a := fun h => hnodup.1 (h ▸ mem_map_of_mem ha)
      rw [tally_cons, if_neg hne, ih hnodup.2 ha, Nat.zero_add]

/-! ### One selection -/

section

variable (h : IsTop count k kept l)
include h

theorem IsTop.subset : kept ⊆ l := by
  obtain ⟨dropped, hperm, -⟩ := h
  exact fun a ha => hperm.mem_iff.mp (mem_append_left _ ha)

theorem IsTop.of_perm {l' : List α} (hperm : l.Perm l') : IsTop count k kept l' := by
  obtain ⟨dropped, hkept, hrest⟩ := h
  exact ⟨dropped, hkept.trans hperm, hrest⟩

theorem IsTop.length_le : kept.length ≤ k := by
  obtain ⟨_, -, -, hle, -⟩ := h
  exact hle

omit [DecidableEq κ] in
theorem IsTop.nodup (hnodup : (l.map name).Nodup) : (kept.map name).Nodup := by
  obtain ⟨dropped, hperm, -⟩ := h
  have hall := (hperm.map name).nodup_iff.mpr hnodup
  rw [map_append] at hall
  exact hall.of_append_left

/-- An entry is kept, or the selection is full and has only entries that are no smaller. -/
theorem IsTop.mem_or_cut {a : α} (ha : a ∈ l) :
    a ∈ kept ∨ kept.length = k ∧ ∀ e ∈ kept, count a ≤ count e := by
  obtain ⟨dropped, hperm, hle, -, hfull⟩ := h
  rcases mem_append.mp (hperm.mem_iff.mpr ha) with hkept | hdropped
  · exact .inl hkept
  · rcases hfull with rfl | hlen
    · cases hdropped
    · exact .inr ⟨hlen, hle a hdropped⟩

end

omit [DecidableEq κ] in
/-- A selection of entries that has room for `k` names as large as a count has no smaller entry. -/
theorem IsTop.ge_of_many {merged result : List α} (hresult : IsTop count k result merged)
    (hnodup : (merged.map name).Nodup) {names : List κ} (hnames : names.Nodup) (hlen : names.length = k) {c : Nat}
    (hlarge : ∀ n ∈ names, ∃ e ∈ merged, name e = n ∧ c ≤ count e) : result.length = k ∧ ∀ e ∈ result, c ≤ count e := by
  constructor
  · by_contra hne
    -- nothing was dropped, so all the names are in the answer
    have hsub : names ⊆ result.map name := by
      intro n hn
      obtain ⟨e, he, rfl, -⟩ := hlarge n hn
      rcases hresult.mem_or_cut he with hmem | ⟨hfull, -⟩
      · exact mem_map_of_mem hmem
      · exact absurd hfull hne
    have hcard := (subperm_of_subset hnames hsub).length_le
    rw [length_map, hlen] at hcard
    exact hne (le_antisymm hresult.length_le hcard)
  · intro e he
    by_contra hlt
    -- all the names are in the answer, and so is the smaller entry
    have hsub : name e :: names ⊆ result.map name := by
      intro n hn
      rcases mem_cons.mp hn with rfl | hn
      · exact mem_map_of_mem he
      · obtain ⟨e', he', rfl, hge⟩ := hlarge n hn
        rcases hresult.mem_or_cut he' with hmem | ⟨-, hsmall⟩
        · exact mem_map_of_mem hmem
        · exact absurd (hge.trans (hsmall e he)) hlt
    have hnew : name e ∉ names := by
      intro hn
      obtain ⟨e', he', hname, hge⟩ := hlarge _ hn
      have heq := inj_on_of_nodup_map hnodup he' (hresult.subset he) hname
      exact hlt (heq ▸ hge)
    have hcard := (subperm_of_subset (nodup_cons.mpr ⟨hnew, hnames⟩) hsub).length_le
    rw [length_cons, length_map, hlen] at hcard
    have := hresult.length_le
    omega

/-! ### Parts -/

variable {parts : List (List α × List α)} (htop : ∀ p ∈ parts, IsTop count k p.1 p.2)
  (hnodup : ∀ p ∈ parts, (p.2.map name).Nodup)

include htop hnodup

theorem tally_sent {p : List α × List α} (hp : p ∈ parts) {n : κ} (hn : n ∈ p.1.map name) :
    tally name count p.1 n = tally name count p.2 n := by
  obtain ⟨a, ha, rfl⟩ := mem_map.mp hn
  rw [tally_of_mem ((htop p hp).nodup (hnodup p hp)) ha, tally_of_mem (hnodup p hp) ((htop p hp).subset ha)]

theorem tally_sent_le {p : List α × List α} (hp : p ∈ parts) (n : κ) :
    tally name count p.1 n ≤ tally name count p.2 n := by
  by_cases hn : n ∈ p.1.map name
  · exact (tally_sent htop hnodup hp hn).le
  · rw [tally_eq_zero hn]
    exact Nat.zero_le _

theorem sum_sent_of_not_cut {n : κ} (hcut : ¬ Cut name parts n) :
    (parts.map fun p => tally name count p.1 n).sum = total name count parts n := by
  refine congrArg List.sum (map_congr_left fun p hp => ?_)
  by_cases hn : n ∈ p.1.map name
  · exact tally_sent htop hnodup hp hn
  · have hn' : n ∉ p.2.map name := fun h => hcut ⟨p, hp, h, hn⟩
    rw [tally_eq_zero hn, tally_eq_zero hn']

theorem sum_sent_of_cut (hpos : ∀ p ∈ parts, ∀ a ∈ p.2, 0 < count a) {n : κ} (hcut : Cut name parts n) :
    (parts.map fun p => tally name count p.1 n).sum < total name count parts n := by
  obtain ⟨p, hp, hhas, hnot⟩ := hcut
  refine sum_lt_sum _ _ (fun q hq => tally_sent_le htop hnodup hq n) ⟨p, hp, ?_⟩
  obtain ⟨a, ha, rfl⟩ := mem_map.mp hhas
  rw [tally_eq_zero hnot, tally_of_mem (hnodup p hp) ha]
  exact hpos p hp a ha

variable {merged result : List α} (hmerge : Merges name count (parts.map Prod.fst) merged)
  (hresult : IsTop count k result merged)

include hmerge

omit htop hnodup in
theorem count_merged {e : α} (he : e ∈ merged) : count e = (parts.map fun p => tally name count p.1 (name e)).sum := by
  have hcount : tally name count merged (name e) = count e := tally_of_mem hmerge.nodup he
  rw [← hcount, hmerge.tally, map_map]
  rfl

theorem exists_merged {n : κ} (hcut : ¬ Cut name parts n) (hpos : 0 < total name count parts n) :
    ∃ e ∈ merged, name e = n ∧ count e = total name count parts n := by
  have hmem : n ∈ merged.map name := by
    by_contra hn
    refine hpos.ne' ?_
    rw [← sum_sent_of_not_cut htop hnodup hcut]
    refine sum_eq_zero fun x hx => ?_
    obtain ⟨p, hp, rfl⟩ := mem_map.mp hx
    exact tally_eq_zero fun h => hn ((hmerge.names n).mpr ⟨p.1, mem_map_of_mem hp, h⟩)
  obtain ⟨e, he, rfl⟩ := mem_map.mp hmem
  exact ⟨e, he, rfl, (count_merged hmerge he).trans (sum_sent_of_not_cut htop hnodup hcut)⟩

include hresult

variable (hpos : ∀ p ∈ parts, ∀ a ∈ p.2, 0 < count a)
include hpos

/-- Where a cut name is outnumbered, the answer is full and has nothing smaller than it. -/
theorem ge_of_outnumbered (hout : Outnumbered name count k parts) {n : κ} (hcut : Cut name parts n) :
    result.length = k ∧ ∀ e ∈ result, total name count parts n ≤ count e := by
  obtain ⟨names, hnames, hlen, hall⟩ := hout n hcut
  refine hresult.ge_of_many hmerge.nodup hnames hlen fun m hm => ?_
  obtain ⟨hnot, hle⟩ := hall m hm
  have htotal := (Nat.zero_le _).trans_lt (sum_sent_of_cut htop hnodup hpos hcut)
  obtain ⟨e, he, hname, hcount⟩ := exists_merged htop hnodup hmerge hnot (htotal.trans_le hle)
  exact ⟨e, he, hname, hcount ▸ hle⟩

/-- The top of what the parts sent is exact just if the names that were cut are outnumbered. -/
theorem exact_iff_outnumbered :
    Exact name count (total name count parts) k result ↔ Outnumbered name count k parts := by
  constructor
  · intro hexact n hcut
    have hless := sum_sent_of_cut htop hnodup hpos hcut
    -- a listed name carries its total, so it is not cut
    have hlisted : ∀ e ∈ result, ¬ Cut name parts (name e) := by
      intro e he hcut'
      have hless' := sum_sent_of_cut htop hnodup hpos hcut'
      rw [← count_merged hmerge (hresult.subset he), hexact.counts e he] at hless'
      exact Nat.lt_irrefl _ hless'
    have hn : n ∉ result.map name := by
      intro hmem
      obtain ⟨e, he, rfl⟩ := mem_map.mp hmem
      exact hlisted e he hcut
    refine ⟨result.map name, hexact.nodup, ?_, fun m hm => ?_⟩
    · rw [length_map]
      exact hexact.full.resolve_right fun hall => hn (hall n ((Nat.zero_le _).trans_lt hless))
    · obtain ⟨e, he, rfl⟩ := mem_map.mp hm
      exact ⟨hlisted e he, hexact.counts e he ▸ hexact.largest n hn e he⟩
  · intro hout
    have hge {n : κ} (hcut : Cut name parts n) :=
      ge_of_outnumbered htop hnodup hmerge hresult hpos hout hcut
    refine ⟨hresult.nodup hmerge.nodup, fun e he => ?_, fun n hn e he => ?_, ?_⟩
    · have hcount := count_merged hmerge (hresult.subset he)
      by_cases hcut : Cut name parts (name e)
      · have hless := sum_sent_of_cut htop hnodup hpos hcut
        rw [← hcount] at hless
        exact absurd ((hge hcut).2 e he) (not_le.mpr hless)
      · exact hcount.trans (sum_sent_of_not_cut htop hnodup hcut)
    · by_cases hcut : Cut name parts n
      · exact (hge hcut).2 e he
      · rcases Nat.eq_zero_or_pos (total name count parts n) with hzero | htotal
        · exact hzero ▸ Nat.zero_le _
        · obtain ⟨a, ha, rfl, hcount⟩ := exists_merged htop hnodup hmerge hcut htotal
          rcases hresult.mem_or_cut ha with hmem | ⟨-, hle⟩
          · exact absurd (mem_map_of_mem hmem) hn
          · exact hcount ▸ hle e he
    · by_cases hlen : result.length = k
      · exact .inl hlen
      · refine .inr fun n htotal => ?_
        have hcut : ¬ Cut name parts n := fun hcut => hlen (hge hcut).1
        obtain ⟨a, ha, rfl, -⟩ := exists_merged htop hnodup hmerge hcut htotal
        rcases hresult.mem_or_cut ha with hmem | ⟨hfull, -⟩
        · exact mem_map_of_mem hmem
        · exact absurd hfull hlen

end

/-! ### Counts alone -/

variable {name count} {k : Nat} {kept l : List α}

theorem tally_pos_iff (hpos : ∀ a ∈ l, 0 < count a) {n : κ} : 0 < tally name count l n ↔ n ∈ l.map name := by
  induction l with
  | nil => simp
  | cons a l ih =>
    have ih := ih fun b hb => hpos b (mem_cons_of_mem _ hb)
    rw [tally_cons, map_cons, mem_cons, ← ih]
    by_cases hname : name a = n
    · have := hpos a mem_cons_self
      simp [hname, this]
    · simp [hname, Ne.symm hname]

/-- The names of a selection lead the counts of what it was made of. -/
theorem IsTop.leading (h : IsTop count k kept l) (hnodup : (l.map name).Nodup) (hpos : ∀ a ∈ l, 0 < count a) :
    Leading k (tally name count l) (kept.map name) where
  nodup := h.nodup hnodup
  length_le := (length_map name).trans_le h.length_le
  pos n hn := by
    obtain ⟨a, ha, rfl⟩ := mem_map.mp hn
    exact (tally_pos_iff hpos).mpr (mem_map_of_mem (h.subset ha))
  rest n hn hnot := by
    obtain ⟨a, ha, rfl⟩ := mem_map.mp ((tally_pos_iff hpos).mp hn)
    rcases h.mem_or_cut ha with hkept | ⟨hlen, hle⟩
    · exact absurd (mem_map_of_mem hkept) hnot
    · refine ⟨(length_map name).trans hlen, fun m hm => ?_⟩
      obtain ⟨b, hb, rfl⟩ := mem_map.mp hm
      rw [tally_of_mem hnodup ha, tally_of_mem hnodup (h.subset hb)]
      exact hle b hb

/-- A selection of everything there is, is exact. -/
theorem IsTop.exact (h : IsTop count k kept l) (hnodup : (l.map name).Nodup) (hpos : ∀ a ∈ l, 0 < count a) :
    Exact name count (tally name count l) k kept where
  nodup := h.nodup hnodup
  counts e he := (tally_of_mem hnodup (h.subset he)).symm
  largest n hn e he := by
    rcases Nat.eq_zero_or_pos (tally name count l n) with hzero | htally
    · exact hzero ▸ Nat.zero_le _
    · have hcount : tally name count l (name e) = count e := tally_of_mem hnodup (h.subset he)
      exact hcount ▸ ((h.leading hnodup hpos).rest n htally hn).2 _ (mem_map_of_mem he)
  full := by
    by_cases hlen : kept.length = k
    · exact .inl hlen
    · refine .inr fun n htally => ?_
      by_contra hn
      exact hlen ((length_map name).symm.trans ((h.leading hnodup hpos).rest n htally hn).1)

variable {ι : Type*} {parts : List ι} {sent held : ι → List α}
  (htop : ∀ i ∈ parts, IsTop count k (sent i) (held i)) (hnodup : ∀ i ∈ parts, ((held i).map name).Nodup)
  (hpos : ∀ i ∈ parts, ∀ a ∈ held i, 0 < count a)

include hpos in
theorem cut_iff {n : κ} : Cut name (parts.map fun i => (sent i, held i)) n ↔
    CutAt parts (fun i => tally name count (held i)) (fun i => (sent i).map name) n := by
  constructor
  · rintro ⟨p, hp, hhas, hnot⟩
    obtain ⟨i, hi, rfl⟩ := mem_map.mp hp
    exact ⟨i, hi, (tally_pos_iff (hpos i hi)).mpr hhas, hnot⟩
  · rintro ⟨i, hi, hhas, hnot⟩
    exact ⟨_, mem_map_of_mem hi, (tally_pos_iff (hpos i hi)).mp hhas, hnot⟩

theorem total_parts (n : κ) : total name count (parts.map fun i => (sent i, held i)) n =
    sumAt parts (fun i => tally name count (held i)) n := by
  rw [total, map_map]
  rfl

include htop hnodup hpos

/-- Where the counts alone guarantee it, the names cut by the selections made are outnumbered. -/
theorem outnumbered_of_always (h : AlwaysOutnumbered k parts fun i => tally name count (held i)) :
    Outnumbered name count k (parts.map fun i => (sent i, held i)) := by
  intro n hcut
  obtain ⟨names, hnames, hlen, hall⟩ := h (fun i => (sent i).map name)
    (fun i hi => (htop i hi).leading (hnodup i hi) (hpos i hi)) n ((cut_iff hpos).mp hcut)
  refine ⟨names, hnames, hlen, fun m hm => ⟨fun hcut' => (hall m hm).1 ((cut_iff hpos).mp hcut'), ?_⟩⟩
  rw [total_parts, total_parts]
  exact (hall m hm).2

/-- Where no tie is cut there is only one selection, so that the counts say which names are cut. -/
theorem always_of_outnumbered (hdecided : Decided k parts fun i => tally name count (held i))
    (h : Outnumbered name count k (parts.map fun i => (sent i, held i))) :
    AlwaysOutnumbered k parts fun i => tally name count (held i) := by
  intro kept hkept n hcut
  have hsame : ∀ m, CutAt parts (fun i => tally name count (held i)) kept m ↔
      CutAt parts (fun i => tally name count (held i)) (fun i => (sent i).map name) m := by
    intro m
    refine exists_congr fun i => and_congr_right fun hi => and_congr_right fun _ => not_congr ?_
    have hsent := (htop i hi).leading (hnodup i hi) (hpos i hi)
    exact ⟨fun hm => hdecided i hi _ _ (hkept i hi) hsent hm, fun hm => hdecided i hi _ _ hsent (hkept i hi) hm⟩
  obtain ⟨names, hnames, hlen, hall⟩ := h n ((cut_iff hpos).mpr ((hsame n).mp hcut))
  refine ⟨names, hnames, hlen, fun m hm => ⟨fun hcut' => (hall m hm).1 ?_, ?_⟩⟩
  · exact (cut_iff hpos).mpr ((hsame m).mp hcut')
  · have hle := (hall m hm).2
    rw [total_parts, total_parts] at hle
    exact hle

end TopK
