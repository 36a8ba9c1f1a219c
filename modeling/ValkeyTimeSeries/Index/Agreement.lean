/-
Index/Agreement.lean

When the index of a database agrees with its keyspace.

`Agrees` has the live pairs, the posting lists and the set of all ids.  Three rules say how it is kept: a
series is retired from the index and its key vacated (`Agrees.retire`), a key without a series changes
(`Agrees.congr`), and a series is indexed under an id that no key has (`Agrees.add`).
-/
import ValkeyTimeSeries.Index.Reconcile

namespace ValkeyTimeSeries

open Function

/-- The index has the series of the keyspace, each under its key and its id, and nothing else. -/
structure Agrees (postings : Postings) (keyspace : Keyspace) : Prop where
  pairs : ∀ id key, postings.Maps id key ↔ keyspace.Carries id key
  lists : ∀ id label, id ∈ postings.list label ↔
    ∃ key series, keyspace key = some (.series series) ∧ series.id = id ∧ label ∈ series.labelKeys
  all : ∀ id, id ∈ postings.allPostings ↔ ∃ key, keyspace.Carries id key
  stale : postings.staleIds.ids = ∅

namespace Agrees

variable {postings : Postings} {keyspace : Keyspace} {key : KeyType} {series : IndexedSeries}

theorem default (keyspace : Keyspace) (h : ∀ key series, keyspace key ≠ some (.series series)) :
    Agrees .default keyspace := by
  have hnone : ∀ id key, ¬ keyspace.Carries id key := fun id key hcarry => by
    obtain ⟨series, hseries, -⟩ := Keyspace.carries_iff.mp hcarry
    exact h key series hseries
  refine ⟨fun id key => ⟨nofun, fun hc => absurd hc (hnone id key)⟩, fun id label => ⟨nofun, ?_⟩, fun id =>
    ⟨nofun, ?_⟩, rfl⟩
  · rintro ⟨key, series, hseries, -⟩
    exact absurd hseries (h key series)
  · rintro ⟨key, hcarry⟩
    exact absurd hcarry (hnone id key)

theorem unique (h : Agrees postings keyspace) {id : SeriesRef} {key key' : KeyType} (hkey : keyspace.Carries id key)
    (hkey' : keyspace.Carries id key') : key = key' :=
  Option.some.inj (((h.pairs id key).mpr hkey).symm.trans ((h.pairs id key').mpr hkey'))

theorem congr {keyspace' : Keyspace} (h : Agrees postings keyspace)
    (hsame : ∀ key series, keyspace' key = some (.series series) ↔ keyspace key = some (.series series)) :
    Agrees postings keyspace' := by
  have hcarry : ∀ id key, keyspace'.Carries id key ↔ keyspace.Carries id key := fun id key => by
    simp only [Keyspace.carries_iff, hsame]
  exact ⟨fun id key => (h.pairs id key).trans (hcarry id key).symm, fun id label => by simp only [h.lists, hsame],
    fun id => by simp only [h.all, hcarry], h.stale⟩

theorem carries_update_none (keyspace : Keyspace) (key : KeyType) {id : SeriesRef} {key' : KeyType} :
    Keyspace.Carries (update keyspace key none) id key' ↔ key' ≠ key ∧ keyspace.Carries id key' := by
  by_cases hkey : key' = key
  · subst hkey
    simp [Keyspace.Carries]
  · simp [Keyspace.Carries, hkey]

theorem carries_update_series (keyspace : Keyspace) (key : KeyType) (series : IndexedSeries) {id : SeriesRef}
    {key' : KeyType} : Keyspace.Carries (update keyspace key (some (.series series))) id key' ↔
    key' = key ∧ series.id = id ∨ key' ≠ key ∧ keyspace.Carries id key' := by
  by_cases hkey : key' = key
  · subst hkey
    simp [Keyspace.Carries, Stored.seriesId]
  · simp [Keyspace.Carries, hkey]

theorem retire (h : Agrees postings keyspace) (hseries : keyspace key = some (.series series)) :
    Agrees (postings.removeTimeseriesForKey series key).1 (update keyspace key none) := by
  have hcarry : keyspace.Carries series.id key := Keyspace.carries_iff.mpr ⟨series, hseries, rfl⟩
  have howner : postings.idToKey.get? series.id = some key := (h.pairs _ _).mpr hcarry
  obtain ⟨hlist, hstale, hall, hkeys⟩ := Postings.removeTimeseries_spec postings series
  rw [Postings.removeTimeseriesForKey, if_pos howner]
  refine ⟨fun id key' => ?_, fun id label => ?_, fun id => ?_, hstale ▸ h.stale⟩
  · rw [Postings.Maps, hkeys, SortedMap.get?_erase, carries_update_none, ← h.pairs, Postings.Maps]
    split_ifs with hid
    · subst hid
      exact ⟨fun hnone => (by cases hnone), fun hother => absurd (Option.some.inj (hother.2.symm.trans howner))
        hother.1⟩
    · refine ⟨fun hmap => ⟨fun heq => hid ?_, hmap⟩, And.right⟩
      subst heq
      exact ((h.pairs id key').mp hmap).unique hcarry
  · rw [hlist, h.lists]
    constructor
    · rintro ⟨⟨key', series', hseries', rfl, hlabel⟩, hnot⟩
      refine ⟨key', series', ?_, rfl, hlabel⟩
      rw [update_of_ne fun heq => ?_]
      · exact hseries'
      · subst heq
        obtain rfl := Stored.series.inj (Option.some.inj (hseries.symm.trans hseries'))
        exact hnot ⟨rfl, hlabel⟩
    · rintro ⟨key', series', hseries', rfl, hlabel⟩
      have hne : key' ≠ key := fun heq => by
        rw [heq, update_self] at hseries'
        cases hseries'
      rw [update_of_ne hne] at hseries'
      refine ⟨⟨key', series', hseries', rfl, hlabel⟩, fun hid => hne ?_⟩
      exact h.unique (Keyspace.carries_iff.mpr ⟨series', hseries', hid.1⟩) hcarry
  · rw [hall, Finset.mem_erase, h.all]
    simp only [carries_update_none]
    constructor
    · rintro ⟨hne, key', hkey'⟩
      exact ⟨key', fun heq => hne ((heq ▸ hkey').unique hcarry), hkey'⟩
    · rintro ⟨key', hne, hkey'⟩
      exact ⟨fun hid => hne (h.unique (hid ▸ hkey') hcarry), key', hkey'⟩

theorem not_maps_of_vacant (h : Agrees postings keyspace) (hkey : keyspace key = none) (id : SeriesRef) :
    ¬ postings.Maps id key := by
  intro hmap
  have hcarry := (h.pairs _ _).mp hmap
  rw [Keyspace.Carries, hkey] at hcarry
  cases hcarry

/-- A series that the index has under no key, or another one, is not removed. -/
theorem removeTimeseriesForKey_of_not_maps (h : ¬ postings.Maps series.id key) :
    (postings.removeTimeseriesForKey series key).1 = postings := by
  have howner : postings.idToKey.get? series.id ≠ some key := h
  rw [Postings.removeTimeseriesForKey, if_neg howner]

theorem add (h : Agrees postings keyspace) (hkey : ∀ series, keyspace key ≠ some (.series series))
    (hfree : ∀ key', ¬ keyspace.Carries series.id key') :
    Agrees (postings.indexTimeseries series key) (update keyspace key (some (.series series))) := by
  obtain ⟨hlist, hstale, -, hall, hkeys⟩ := Postings.indexTimeseries_spec postings series key
  refine ⟨fun id key' => ?_, fun id label => ?_, fun id => ?_, ?_⟩
  · rw [Postings.Maps, hkeys, carries_update_series, ← h.pairs, Postings.Maps]
    split_ifs with hid
    · subst hid
      constructor
      · exact fun heq => .inl ⟨(Option.some.inj heq).symm, rfl⟩
      · rintro (⟨rfl, -⟩ | ⟨-, hmap⟩)
        · rfl
        · exact absurd ((h.pairs _ _).mp hmap) (hfree key')
    · constructor
      · refine fun hmap => .inr ⟨fun heq => ?_, hmap⟩
        obtain ⟨series', hseries', -⟩ := Keyspace.carries_iff.mp ((h.pairs _ _).mp hmap)
        exact hkey series' (heq ▸ hseries')
      · rintro (⟨-, heq⟩ | ⟨-, hmap⟩)
        · exact absurd heq.symm hid
        · exact hmap
  · rw [hlist, h.lists]
    constructor
    · rintro (⟨key', series', hseries', rfl, hlabel⟩ | ⟨rfl, hlabel⟩)
      · have hne : key' ≠ key := fun heq => hkey series' (heq ▸ hseries')
        exact ⟨key', series', by rw [update_of_ne hne]; exact hseries', rfl, hlabel⟩
      · exact ⟨key, series, update_self .., rfl, hlabel⟩
    · rintro ⟨key', series', hseries', rfl, hlabel⟩
      by_cases heq : key' = key
      · rw [heq, update_self] at hseries'
        obtain rfl := Stored.series.inj (Option.some.inj hseries')
        exact .inr ⟨rfl, hlabel⟩
      · rw [update_of_ne heq] at hseries'
        exact .inl ⟨key', series', hseries', rfl, hlabel⟩
  · rw [hall, Finset.mem_insert, h.all]
    simp only [carries_update_series]
    constructor
    · rintro (rfl | ⟨key', hkey'⟩)
      · exact ⟨key, .inl ⟨rfl, rfl⟩⟩
      · refine ⟨key', .inr ⟨fun heq => ?_, hkey'⟩⟩
        obtain ⟨series', hseries', -⟩ := Keyspace.carries_iff.mp hkey'
        exact hkey series' (heq ▸ hseries')
    · rintro ⟨key', ⟨-, rfl⟩ | ⟨-, hkey'⟩⟩
      · exact .inl rfl
      · exact .inr ⟨key', hkey'⟩
  · rw [hstale, h.stale]
    rfl

end Agrees

end ValkeyTimeSeries
