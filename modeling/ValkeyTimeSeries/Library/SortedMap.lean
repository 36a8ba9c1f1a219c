/-
Library/SortedMap.lean

Finite maps as lists of entries with strictly increasing keys.

Design.  The order is a field, so every map that can be built is sorted, and a map is the function it looks up
(`ext_get?`).  `alter` is the only write at one key: an insertion, a removal and an update in place are
instances of it. `filterMap` is the only write at all keys.  `batch` is the first `count` entries from a start
key on, `nextKey` the key the next batch resumes from, and `mem_batch_iff` says which keys lie in between.
-/
import ValkeyTimeSeries.Library.SortedList

/-- A map from `κ` to `ν`, its entries in the order of their keys. -/
structure SortedMap (κ ν : Type) [LinearOrder κ] where
  entries : List (κ × ν)
  sorted : SortedList.Sorted Prod.fst entries

namespace SortedMap

open List

variable {κ ν : Type} [LinearOrder κ] {m : SortedMap κ ν} {k k' : κ} {v : ν}

instance [DecidableEq ν] : DecidableEq (SortedMap κ ν) := fun m m' =>
  decidable_of_iff (m.entries = m'.entries) ⟨fun h => by cases m; cases m'; cases h; rfl, fun h => h ▸ rfl⟩

/-! ### Looking up -/

def empty : SortedMap κ ν := ⟨[], List.Pairwise.nil⟩

def get? (m : SortedMap κ ν) (k : κ) : Option ν := (m.entries.find? (·.1 = k)).map Prod.snd

def contains (m : SortedMap κ ν) (k : κ) : Bool := (m.get? k).isSome

def keys (m : SortedMap κ ν) : List κ := m.entries.map Prod.fst

def length (m : SortedMap κ ν) : Nat := m.entries.length

@[simp] theorem get?_empty : (empty : SortedMap κ ν).get? k = none := rfl

theorem keys_nodup (m : SortedMap κ ν) : m.keys.Nodup :=
  pairwise_map.mpr (m.sorted.imp fun h => h.ne)

theorem get?_eq_some_iff : m.get? k = some v ↔ (k, v) ∈ m.entries := by
  rw [get?, Option.map_eq_some_iff]
  constructor
  · rintro ⟨⟨k', v'⟩, hfind, rfl⟩
    obtain rfl : k' = k := by simpa using find?_some hfind
    exact mem_of_find?_eq_some hfind
  · intro hmem
    cases hfind : m.entries.find? (·.1 = k) with
    | none =>
      have hne := find?_eq_none.mp hfind _ hmem
      simp at hne
    | some e =>
      refine ⟨e, rfl, ?_⟩
      have hk : e.1 = k := by simpa using find?_some hfind
      have he : e ∈ m.entries := mem_of_find?_eq_some hfind
      have heq : e = (k, v) := inj_on_of_nodup_map m.keys_nodup he hmem hk
      rw [heq]

theorem mem_keys_iff : k ∈ m.keys ↔ ∃ v, m.get? k = some v := by
  simp only [get?_eq_some_iff, keys, mem_map, Prod.exists, exists_and_right, exists_eq_right]

theorem ext_get? {m' : SortedMap κ ν} (h : ∀ k, m.get? k = m'.get? k) : m = m' := by
  have hperm : m.entries.Perm m'.entries := by
    refine (perm_ext_iff_of_nodup (m.sorted.imp fun h => ?_) (m'.sorted.imp fun h => ?_)).mpr fun ⟨k, v⟩ => ?_
    · exact fun e => h.ne (congrArg Prod.fst e)
    · exact fun e => h.ne (congrArg Prod.fst e)
    · rw [← get?_eq_some_iff, ← get?_eq_some_iff, h]
  have hentries := hperm.eq_of_pairwise (fun a b _ _ hab hba => absurd hab hba.asymm) m.sorted m'.sorted
  cases m
  cases m'
  cases hentries
  rfl

/-! ### Writing at one key -/

/-- Replace what the map holds at `k`, if anything, by what `f` makes of it. -/
def alter (m : SortedMap κ ν) (k : κ) (f : Option ν → Option ν) : SortedMap κ ν where
  entries := (m.entries.filter (·.1 < k)) ++ (((f (m.get? k)).map (k, ·)).toList ++ m.entries.filter (k < ·.1))
  sorted := by
    refine pairwise_append.mpr ⟨m.sorted.filter _, pairwise_append.mpr ⟨?_, m.sorted.filter _, ?_⟩, ?_⟩
    · cases f (m.get? k) <;> simp
    · intro a ha b hb
      obtain ⟨v, _, rfl⟩ : ∃ v, f (m.get? k) = some v ∧ (k, v) = a := by simpa [Option.map_eq_some_iff] using ha
      simpa using (mem_filter.mp hb).2
    · intro a ha b hb
      have hak : a.1 < k := by simpa using (mem_filter.mp ha).2
      rcases mem_append.mp hb with hb | hb
      · obtain ⟨v, _, rfl⟩ : ∃ v, f (m.get? k) = some v ∧ (k, v) = b := by simpa [Option.map_eq_some_iff] using hb
        exact hak
      · exact hak.trans (by simpa using (mem_filter.mp hb).2)

def insert (m : SortedMap κ ν) (k : κ) (v : ν) : SortedMap κ ν := m.alter k fun _ => some v

def erase (m : SortedMap κ ν) (k : κ) : SortedMap κ ν := m.alter k fun _ => none

theorem get?_alter (f : Option ν → Option ν) :
    (m.alter k f).get? k' = if k' = k then f (m.get? k) else m.get? k' := by
  refine Option.ext fun v => ?_
  rw [get?_eq_some_iff]
  have hmid : (k', v) ∈ ((f (m.get? k)).map (k, ·)).toList ↔ k' = k ∧ f (m.get? k) = some v := by
    rw [Option.mem_toList, Option.map_eq_some_iff]
    constructor
    · rintro ⟨w, hw, h⟩
      cases h
      exact ⟨rfl, hw⟩
    · rintro ⟨rfl, hw⟩
      exact ⟨v, hw, rfl⟩
  simp only [alter, mem_append, hmid, mem_filter, ← get?_eq_some_iff]
  split
  · next h => subst h; simp
  · next h =>
      rcases lt_or_gt_of_ne h with hlt | hlt
      · simp [h, hlt, hlt.not_gt]
      · simp [h, hlt, hlt.not_gt]

theorem get?_insert : (m.insert k v).get? k' = if k' = k then some v else m.get? k' := get?_alter _

theorem get?_erase : (m.erase k).get? k' = if k' = k then none else m.get? k' := get?_alter _

theorem get?_foldl_erase (keys : List κ) (m : SortedMap κ ν) (k : κ) :
    (keys.foldl erase m).get? k = if k ∈ keys then none else m.get? k := by
  induction keys generalizing m with
  | nil => simp
  | cons key keys ih =>
    rw [foldl_cons, ih, get?_erase]
    by_cases hk : k = key <;> by_cases hmem : k ∈ keys <;> simp [hmem]

theorem get?_foldl_insert (l : List (κ × ν)) (hl : (l.map Prod.fst).Nodup) (m : SortedMap κ ν) :
    (l.foldl (fun m e => m.insert e.1 e.2) m).get? k = some v ↔
    (k, v) ∈ l ∨ (k ∉ l.map Prod.fst ∧ m.get? k = some v) := by
  induction l generalizing m with
  | nil => simp
  | cons e l ih =>
    obtain ⟨hnot, hnodup⟩ := nodup_cons.mp hl
    rw [foldl_cons, ih hnodup, get?_insert]
    obtain ⟨k₀, v₀⟩ := e
    by_cases hk : k = k₀
    · subst hk
      have hno : ∀ v, (k, v) ∉ l := fun v h => hnot (mem_map.mpr ⟨(k, v), h, rfl⟩)
      simp [hno, eq_comm]
    · simp [hk]

/-- A map is what its entries make when they are put in one after the other. -/
theorem foldl_insert_entries (m : SortedMap κ ν) : m.entries.foldl (fun m e => m.insert e.1 e.2) empty = m := by
  refine ext_get? fun k => Option.ext fun v => ?_
  rw [get?_foldl_insert _ m.keys_nodup, get?_empty, get?_eq_some_iff]
  simp

/-! ### Writing everywhere -/

def filterMap (m : SortedMap κ ν) (f : κ → ν → Option ν) : SortedMap κ ν where
  entries := m.entries.filterMap fun e => (f e.1 e.2).map (e.1, ·)
  sorted := by
    refine List.Pairwise.filterMap _ (fun a b hab a' ha b' hb => ?_) m.sorted
    obtain ⟨_, _, rfl⟩ := Option.map_eq_some_iff.mp ha
    obtain ⟨_, _, rfl⟩ := Option.map_eq_some_iff.mp hb
    exact hab

theorem get?_filterMap (f : κ → ν → Option ν) : (m.filterMap f).get? k = (m.get? k).bind (f k) := by
  refine Option.ext fun v => ?_
  rw [get?_eq_some_iff, Option.bind_eq_some_iff, filterMap]
  simp only [mem_filterMap, Option.map_eq_some_iff, Prod.exists, Prod.mk.injEq, get?_eq_some_iff]
  constructor
  · rintro ⟨k₀, v₀, hmem, w, hw, rfl, rfl⟩
    exact ⟨v₀, hmem, hw⟩
  · rintro ⟨v₀, hmem, hw⟩
    exact ⟨k, v₀, hmem, v, hw, rfl, rfl⟩

def mapValues {ω : Type} (m : SortedMap κ ν) (f : κ → ν → ω) : SortedMap κ ω where
  entries := m.entries.map fun e => (e.1, f e.1 e.2)
  sorted := by
    refine pairwise_map.mpr (m.sorted.imp fun h => ?_)
    exact h

theorem get?_mapValues {ω : Type} (f : κ → ν → ω) : (m.mapValues f).get? k = (m.get? k).map (f k) := by
  refine Option.ext fun w => ?_
  rw [get?_eq_some_iff, Option.map_eq_some_iff, mapValues]
  simp only [mem_map, Prod.exists, Prod.mk.injEq, get?_eq_some_iff]
  constructor
  · rintro ⟨k, v, hmem, rfl, rfl⟩
    exact ⟨v, hmem, rfl⟩
  · rintro ⟨v, hmem, rfl⟩
    exact ⟨k, v, hmem, rfl, rfl⟩

/-! ### Collecting under keys -/

section Collect

variable {ι : Type} {key : ι → Option κ} {init : ν} {step : ν → ι → ν}

/-- Add the items of a list one after the other, each to the value under its own key. -/
def collect (key : ι → Option κ) (init : ν) (step : ν → ι → ν) (m : SortedMap κ ν) (l : List ι) : SortedMap κ ν :=
  l.foldl (fun m x =>
    match key x with
    | none => m
    | some k => m.alter k fun old => some (step (old.getD init) x)) m

theorem collect_append (m : SortedMap κ ν) (l l' : List ι) :
    collect key init step m (l ++ l') = collect key init step (collect key init step m l) l' := foldl_append

/-- The value under a key is made of the items with that key, in their order. -/
theorem get?_collect (l : List ι) (m : SortedMap κ ν) (k : κ) : (collect key init step m l).get? k =
    if l.filter (fun x => key x = some k) = [] then m.get? k
    else some ((l.filter fun x => key x = some k).foldl step ((m.get? k).getD init)) := by
  induction l generalizing m with
  | nil => rfl
  | cons x l ih =>
    rw [collect, foldl_cons]
    cases hx : key x with
    | none => rw [filter_cons_of_neg (by simp [hx])]; exact ih m
    | some k' =>
      refine (ih _).trans ?_
      by_cases hk : k = k'
      · subst hk
        rw [get?_alter, if_pos rfl, filter_cons_of_pos (by simp [hx]), if_neg (cons_ne_nil _ _)]
        split
        · next h => rw [h]; rfl
        · rfl
      · rw [get?_alter, if_neg hk, filter_cons_of_neg (by simpa [hx] using Ne.symm hk)]

theorem get?_collect_empty (l : List ι) (k : κ) : (collect key init step empty l).get? k =
      if l.filter (fun x => key x = some k) = [] then none
      else some ((l.filter fun x => key x = some k).foldl step init) := get?_collect l empty k

/-- Two collections are reported alike if the report does not tell apart what they collect
under each key. -/
theorem map_entries_collect {ω : Type} (report : κ → ν → ω) (g : ι → ι) (hg : ∀ x, key (g x) = key x) (l : List ι)
    (h : ∀ k, report k (((l.filter fun x => key x = some k).map g).foldl step init) =
    report k ((l.filter fun x => key x = some k).foldl step init)) :
    (collect key init step empty (l.map g)).entries.map (fun e => report e.1 e.2) =
    (collect key init step empty l).entries.map fun e => report e.1 e.2 := by
  have hmaps : (collect key init step empty (l.map g)).mapValues report =
      (collect key init step empty l).mapValues report := by
    refine ext_get? fun k => ?_
    have hfilter : (l.map g).filter (fun x => key x = some k) = (l.filter fun x => key x = some k).map g := by
      rw [filter_map]
      congr 1
      exact filter_congr fun x _ => by rw [Function.comp_apply, hg]
    rw [get?_mapValues, get?_mapValues, get?_collect_empty, get?_collect_empty, hfilter]
    simp only [map_eq_nil_iff]
    split
    · rfl
    · exact congrArg some (h k)
  have hvalues := congrArg (fun m => m.entries.map Prod.snd) hmaps
  simpa only [mapValues, map_map, Function.comp_def] using hvalues

end Collect

/-! ### Walking in batches -/

def ahead (m : SortedMap κ ν) (start : Option κ) : List (κ × ν) :=
  m.entries.filter fun e => start.all (· ≤ e.1)

/-- The first `count` entries from `start` on. -/
def batch (m : SortedMap κ ν) (start : Option κ) (count : Nat) : List (κ × ν) := (m.ahead start).take count

def nextKey (m : SortedMap κ ν) (start : Option κ) (count : Nat) : Option κ :=
  ((m.ahead start).drop count).head?.map Prod.fst

variable {start : Option κ} {count : Nat}

theorem mem_ahead_iff {e : κ × ν} : e ∈ m.ahead start ↔ e ∈ m.entries ∧ ∀ s ∈ start, s ≤ e.1 := by
  rw [ahead, mem_filter]
  cases start <;> simp

theorem nextKey_mem (h : m.nextKey start count = some k) : k ∈ m.keys ∧ ∀ s ∈ start, s ≤ k := by
  obtain ⟨e, he, rfl⟩ := Option.map_eq_some_iff.mp h
  have hmem : e ∈ m.ahead start := mem_of_mem_drop (mem_of_mem_head? he)
  exact ⟨mem_map_of_mem (mem_ahead_iff.mp hmem).1, (mem_ahead_iff.mp hmem).2⟩

/-- A batch is what lies between its start and the key after it. -/
theorem mem_batch_iff {e : κ × ν} :
    e ∈ m.batch start count ↔ e ∈ m.ahead start ∧ ∀ n ∈ m.nextKey start count, e.1 < n := by
  have hsorted : SortedList.Sorted Prod.fst (m.ahead start) := m.sorted.filter _
  rw [← take_append_drop count (m.ahead start)] at hsorted
  obtain ⟨_, hdrop, hlt⟩ := pairwise_append.mp hsorted
  have hsplit : e ∈ m.ahead start ↔ e ∈ m.batch start count ∨ e ∈ (m.ahead start).drop count := by
    rw [batch, ← mem_append, take_append_drop]
  rw [hsplit, nextKey]
  cases hrest : (m.ahead start).drop count with
  | nil => simp
  | cons n rest =>
    rw [hrest] at hdrop hlt
    simp only [head?_cons, Option.map_some, Option.mem_some_iff, forall_eq']
    refine ⟨fun h => ⟨Or.inl h, hlt _ h _ mem_cons_self⟩, fun ⟨h, hn⟩ => h.resolve_right fun h => ?_⟩
    rcases mem_cons.mp h with rfl | h
    · exact lt_irrefl _ hn
    · exact lt_asymm hn ((pairwise_cons.mp hdrop).1 _ h)

/-- From the key after a batch on there are at most the entries the batch has left. -/
theorem length_ahead_nextKey_le (m' : SortedMap κ ν) (hnext : m.nextKey start count = some k)
    (hsub : ∀ e ∈ m'.entries, k ≤ e.1 → e ∈ m.entries) :
    (m'.ahead (some k)).length ≤ (m.ahead start).length - count := by
  have hnodup : (m'.ahead (some k)).Nodup :=
    (m'.sorted.filter _).imp fun h e => h.ne (congrArg Prod.fst e)
  rw [← length_drop]
  refine (hnodup.subperm fun e he => ?_).length_le
  obtain ⟨hmem, hle⟩ := mem_ahead_iff.mp he
  have hk : k ≤ e.1 := hle k rfl
  have hahead : e ∈ m.ahead start :=
    mem_ahead_iff.mpr ⟨hsub e hmem hk, fun s hs => ((nextKey_mem hnext).2 s hs).trans hk⟩
  rw [← take_append_drop count (m.ahead start)] at hahead
  refine (mem_append.mp hahead).resolve_left fun hbatch => ?_
  exact absurd ((mem_batch_iff.mp hbatch).2 k hnext) hk.not_gt

/-- A batch of no entries that is also the last one starts behind the last key. -/
theorem ahead_of_batch_nil (hbatch : m.batch start count = []) (hnext : m.nextKey start count = none) :
    m.ahead start = [] := by
  have hdrop : (m.ahead start).drop count = [] := by
    simpa [nextKey] using hnext
  rw [← take_append_drop count (m.ahead start), hdrop, append_nil]
  exact hbatch

/-- A batch is what lies between its start and its own last key. -/
theorem mem_batch_iff_le_last {e l : κ × ν} (hlast : (m.batch start count).getLast? = some l) :
    e ∈ m.batch start count ↔ e ∈ m.ahead start ∧ e.1 ≤ l.1 := by
  have hsorted : SortedList.Sorted Prod.fst (m.ahead start) := m.sorted.filter _
  rw [← take_append_drop count (m.ahead start)] at hsorted
  obtain ⟨htake, _, hlt⟩ := pairwise_append.mp hsorted
  obtain ⟨init, hinit⟩ := getLast?_eq_some_iff.mp hlast
  have hl : l ∈ m.batch start count := hinit ▸ mem_append_right _ (mem_singleton_self l)
  refine ⟨fun h => ⟨mem_of_mem_take h, ?_⟩, fun ⟨h, hle⟩ => ?_⟩
  · rw [hinit] at h
    rcases mem_append.mp h with h | h
    · rw [← batch, hinit] at htake
      exact ((pairwise_append.mp htake).2.2 _ h l (mem_singleton_self l)).le
    · rw [mem_singleton.mp h]
  · rw [← take_append_drop count (m.ahead start)] at h
    exact (mem_append.mp h).resolve_right fun hdrop => (hlt l hl e hdrop).not_ge hle

/-- Past one of its entries a map that lost entries has fewer left. -/
theorem length_ahead_lt (m' : SortedMap κ ν) (hsub : m'.entries ⊆ m.entries) {l : κ × ν} (hl : l ∈ m.ahead start)
    (hk : l.1 < k) : (m'.ahead (some k)).length < (m.ahead start).length := by
  have hnodup : (m'.ahead (some k)).Nodup :=
    (m'.sorted.filter _).imp fun h e => h.ne (congrArg Prod.fst e)
  have hpast : ∀ e ∈ m'.ahead (some k), l.1 < e.1 := fun e he => hk.trans_le ((mem_ahead_iff.mp he).2 k rfl)
  have hcons : (l :: m'.ahead (some k)).Nodup := nodup_cons.mpr ⟨fun h => lt_irrefl _ (hpast l h), hnodup⟩
  refine Nat.lt_of_succ_le (hcons.subperm fun e he => ?_).length_le
  rcases mem_cons.mp he with rfl | he
  · exact hl
  · exact mem_ahead_iff.mpr ⟨hsub (mem_ahead_iff.mp he).1, fun s hs =>
      ((mem_ahead_iff.mp hl).2 s hs).trans (hpast e he).le⟩

theorem length_alter_le (m : SortedMap κ ν) (k : κ) (f : Option ν → Option ν) :
    (m.alter k f).length ≤ m.length + (f (m.get? k)).toList.length := by
  have hsides (l : List (κ × ν)) : (l.filter (·.1 < k)).length + (l.filter (k < ·.1)).length ≤ l.length := by
    induction l with
    | nil => rfl
    | cons e l ih =>
      rcases lt_trichotomy e.1 k with hlt | heq | hlt
      · simp [hlt, hlt.not_gt]
        omega
      · simp [heq]
        omega
      · simp [hlt, hlt.not_gt]
        omega
  have := hsides m.entries
  simp only [length, alter, length_append, Option.length_toList, Option.isSome_map]
  simp at *
  omega

end SortedMap
