/-
Compaction/RuleGraph.lean

The live rules form no cycle.

A link is written at both ends, but cycles are checked for only when a rule is created; a series that is
moved, restored or renamed to a key may make links live again that name it.  Where an arriving series is at
most one end of live rules, and a renamed one takes a name that none of its partners links to, no cycle
arises, and the search refuses a rule only if it would close one.
-/
import ValkeyTimeSeries.Library.Acyclic
import ValkeyTimeSeries.Compaction.RuleLinks

namespace ValkeyTimeSeries

open List Relation Function

namespace Links

variable {links links' : Links} {source dest key target current : KeyType} {series : LinkedSeries}

def Named (links : Links) : Prop := ∀ key series, links key = some (.series series) → series.key = key

/-! ### The search -/

/-- The series at `current` is one that the search goes on from. -/
def Enters (links : Links) (source : Option KeyType) (current : KeyType) : Prop :=
  ∃ series, links current = some (.series series) ∧ ∀ key ∈ source, series.srcSeries = some key

/-- The keys visited in vain: they lead only to one another. -/
structure Swept (links : Links) (target : KeyType) (visited visited' : Finset KeyType) : Prop where
  sub : visited ⊆ visited'
  target : target ∈ visited' → target ∈ visited
  closed : ∀ x ∈ visited', x ∉ visited → ∀ y, links.Live x y → y ∈ visited'

theorem Swept.refl (visited : Finset KeyType) : Swept links target visited visited :=
  ⟨subset_rfl, id, fun _ hx hx' => absurd hx hx'⟩

theorem Swept.trans {visited₁ visited₂ visited₃ : Finset KeyType} (h : Swept links target visited₁ visited₂)
    (h' : Swept links target visited₂ visited₃) : Swept links target visited₁ visited₃ := by
  refine ⟨h.sub.trans h'.sub, fun ht => h.target (h'.target ht), fun x hx hx₁ y hlive => ?_⟩
  by_cases hx₂ : x ∈ visited₂
  · exact h'.sub (h.closed x hx₂ hx₁ y hlive)
  · exact h'.closed x hx hx₂ y hlive

def Found (links : Links) (target current : KeyType) (source : Option KeyType) (visited : Finset KeyType) :
    Except RuleError (Bool × Finset KeyType) → Prop
  | .error e => e = .wrongType
  | .ok (true, _) => links.Enters source current ∧ ReflTransGen links.Live current target
  | .ok (false, visited') => Swept links target visited visited' ∧ (links.Enters source current → current ∈ visited')

def FoundAny (links : Links) (target : KeyType) (rules : List KeyType) (source : KeyType) (visited : Finset KeyType) :
    Except RuleError (Bool × Finset KeyType) → Prop
  | .error e => e = .wrongType
  | .ok (true, _) => ∃ dest ∈ rules, links.Enters (some source) dest ∧ ReflTransGen links.Live dest target
  | .ok (false, visited') => Swept links target visited visited' ∧
      ∀ dest ∈ rules, links.Enters (some source) dest → dest ∈ visited'

theorem reachesAny_ends {reaches : Nat → KeyType → Finset KeyType → Search} {visited₀ : Finset KeyType}
    (source : KeyType)
    (hreaches : ∀ dest visited, visited₀ ⊆ visited →
    ∃ found, Ends (fun fuel => reaches fuel dest visited) found ∧ Found links target dest (some source) visited found)
    (rules : List KeyType) (visited : Finset KeyType) (hsub : visited₀ ⊆ visited) :
    ∃ found, Ends (fun fuel => reachesAny (reaches fuel) rules visited) found ∧
    FoundAny links target rules source visited found := by
  induction rules generalizing visited with
  | nil => exact ⟨_, Ends.pure _, Swept.refl visited, fun dest hdest => absurd hdest not_mem_nil⟩
  | cons dest rules ih =>
    obtain ⟨found, hends, hfound⟩ := hreaches dest visited hsub
    match found, hfound with
    | .error e, hfound => exact ⟨_, hends.bind (Ends.pure _), hfound⟩
    | .ok (true, visited'), hfound =>
      exact ⟨_, hends.bind (Ends.pure _), dest, mem_cons_self, hfound⟩
    | .ok (false, visited'), hfound =>
      obtain ⟨found', hends', hfound'⟩ := ih visited' (hsub.trans hfound.1.sub)
      refine ⟨found', hends.bind hends', ?_⟩
      match found', hfound' with
      | .error e, hfound' => exact hfound'
      | .ok (true, visited''), hfound' =>
        obtain ⟨dest', hdest', htarget⟩ := hfound'
        exact ⟨dest', mem_cons_of_mem _ hdest', htarget⟩
      | .ok (false, visited''), hfound' =>
        refine ⟨hfound.1.trans hfound'.1, fun dest' hdest' henters => ?_⟩
        rcases mem_cons.mp hdest' with rfl | hdest'
        · exact hfound'.1.sub (hfound.2 henters)
        · exact hfound'.2 dest' hdest' henters

theorem Live.of_enters (hseries : links source = some (.series series)) (hdest : dest ∈ series.rules)
    (henters : links.Enters (some source) dest) : links.Live source dest := by
  obtain ⟨destination, hdestination, hback⟩ := henters
  exact ⟨series, destination, hseries, hdest, hdestination, hback source rfl⟩

theorem Swept.of_insert {visited visited' : Finset KeyType} (hseries : links current = some (.series series))
    (hne : current ≠ target) (h : Swept links target (insert current visited) visited')
    (hrules : ∀ dest ∈ series.rules, links.Enters (some current) dest → dest ∈ visited') :
    Swept links target visited visited' := by
  refine ⟨(Finset.subset_insert _ _).trans h.sub, fun htarget => ?_, fun x hx hxv y hlive => ?_⟩
  · rcases Finset.mem_insert.mp (h.target htarget) with rfl | hmem
    · exact absurd rfl hne
    · exact hmem
  · by_cases hxc : x = current
    · subst hxc
      obtain ⟨series', destination, hseries', hdest, hdestination, hback⟩ := hlive
      obtain rfl := LinkedValue.series.inj (Option.some.inj (hseries.symm.trans hseries'))
      exact hrules y hdest ⟨destination, hdestination, fun key hkey => Option.mem_some.mp hkey ▸ hback⟩
    · exact h.closed x hx (fun hmem => (Finset.mem_insert.mp hmem).elim hxc hxv) y hlive

/-- The search ends: every series it goes into is visited once. -/
theorem dependencyReaches_ends (hnamed : links.Named) {keys : Finset KeyType}
    (hkeys : ∀ key, links key ≠ none → key ∈ keys) (target current : KeyType) (source : Option KeyType)
    (visited : Finset KeyType) :
    ∃ found, Ends (fun fuel => dependencyReaches links target fuel current source visited) found ∧
    Found links target current source visited found := by
  induction hcard : (keys \ visited).card using Nat.strong_induction_on generalizing visited current source with
  | _ n ih =>
    cases hget : links current with
    | none =>
      refine ⟨.ok (false, visited), Ends.last fun fuel => ?_, Swept.refl visited, ?_⟩
      · simp only [dependencyReaches, tryGetTimeseries, hget]
      · rintro ⟨series, hseries, -⟩
        cases hget.symm.trans hseries
    | some value =>
      cases value with
      | other =>
        refine ⟨.error .wrongType, Ends.last fun fuel => ?_, rfl⟩
        simp only [dependencyReaches, tryGetTimeseries, hget]
      | series series =>
        by_cases hback : ∃ key ∈ source, series.srcSeries ≠ some key
        · refine ⟨.ok (false, visited), Ends.last fun fuel => ?_, Swept.refl visited, ?_⟩
          · simp only [dependencyReaches, tryGetTimeseries, hget, if_pos hback]
          · rintro ⟨series', hseries', hall⟩
            obtain rfl := LinkedValue.series.inj (Option.some.inj (hget.symm.trans hseries'))
            obtain ⟨key, hkey, hne⟩ := hback
            exact absurd (hall key hkey) hne
        · have henters : links.Enters source current :=
            ⟨series, hget, fun key hkey => by_contra fun hne => hback ⟨key, hkey, hne⟩⟩
          by_cases htarget : current = target
          · refine ⟨.ok (true, visited), Ends.last fun fuel => ?_, henters, htarget ▸ .refl⟩
            simp only [dependencyReaches, tryGetTimeseries, hget, if_neg hback, if_pos htarget]
          · by_cases hvisited : current ∈ visited
            · refine ⟨.ok (false, visited), Ends.last fun fuel => ?_, Swept.refl visited, fun _ => hvisited⟩
              simp only [dependencyReaches, tryGetTimeseries, hget, if_neg hback, if_neg htarget, if_pos hvisited]
            · have hkey := hnamed current series hget
              -- the keys left to visit are fewer once this one is visited
              have hfewer : ∀ visited', insert current visited ⊆ visited' → (keys \ visited').card < n := by
                intro visited' hsub
                rw [← hcard]
                refine Finset.card_lt_card ⟨Finset.sdiff_subset_sdiff subset_rfl
                  ((Finset.subset_insert _ _).trans hsub), fun hle => ?_⟩
                have hmem : current ∈ keys \ visited :=
                  Finset.mem_sdiff.mpr ⟨hkeys current (by simp [hget]), hvisited⟩
                exact (Finset.mem_sdiff.mp (hle hmem)).2 (hsub (Finset.mem_insert_self _ _))
              obtain ⟨found, hends, hfound⟩ := reachesAny_ends series.key
                (fun dest visited' hsub => ih _ (hfewer visited' hsub) dest (some series.key) visited' rfl)
                series.rules (insert current visited) subset_rfl
              rw [hkey] at hfound
              refine ⟨found, hends.round fun fuel => ?_, ?_⟩
              · simp only [dependencyReaches, tryGetTimeseries, hget, if_neg hback, if_neg htarget, if_neg hvisited]
              · match found, hfound with
                | .error e, hfound => exact hfound
                | .ok (true, visited'), hfound =>
                  obtain ⟨dest, hdest, hin, hreach⟩ := hfound
                  exact ⟨henters, .head (.of_enters hget hdest hin) hreach⟩
                | .ok (false, visited'), hfound =>
                  exact ⟨hfound.1.of_insert hget htarget hfound.2, fun _ => hfound.1.sub (Finset.mem_insert_self _ _)⟩

/-- The check passes exactly if the destination does not lead to the source. -/
theorem checkNewRuleCircularDependency_ends (source : KeyType) (hnamed : links.Named) {keys : Finset KeyType}
    (hkeys : ∀ key, links key ≠ none → key ∈ keys) {destSeries : LinkedSeries}
    (hdest : links dest = some (.series destSeries)) :
    ∃ result, Ends (fun fuel => checkNewRuleCircularDependency fuel links source dest) result ∧
    (result = .error .wrongType ∨ result = .error .circularDependency ∧ ReflTransGen links.Live dest source ∨
    result = .ok () ∧ ¬ ReflTransGen links.Live dest source) := by
  obtain ⟨found, hends, hfound⟩ := dependencyReaches_ends hnamed hkeys source dest none ∅
  match found, hfound with
  | .error e, hfound => exact ⟨_, hends.bind (Ends.pure _), .inl (congrArg _ hfound)⟩
  | .ok (true, _), hfound => exact ⟨_, hends.bind (Ends.pure _), .inr (.inl ⟨rfl, hfound.2⟩)⟩
  | .ok (false, visited), hfound =>
    refine ⟨_, hends.bind (Ends.pure _), .inr (.inr ⟨rfl, fun hreach => ?_⟩)⟩
    have hin : dest ∈ visited := hfound.2 ⟨destSeries, hdest, nofun⟩
    have hall : ∀ x, ReflTransGen links.Live dest x → x ∈ visited := by
      intro x hx
      induction hx with
      | refl => exact hin
      | tail _ hlive ih => exact hfound.1.closed _ ih (Finset.notMem_empty _) _ hlive
    exact absurd (hfound.1.target (hall source hreach)) (Finset.notMem_empty _)

/-! ### Links of a keyspace -/

def rulesOf (links : Links) (key : KeyType) : List KeyType :=
  match links key with
  | some (.series series) => series.rules
  | _ => []

def srcOf (links : Links) (key : KeyType) : Option KeyType :=
  match links key with
  | some (.series series) => series.srcSeries
  | _ => none

theorem rulesOf_series (h : links key = some (.series series)) : links.rulesOf key = series.rules := by
  simp only [rulesOf, h]

theorem srcOf_series (h : links key = some (.series series)) : links.srcOf key = series.srcSeries := by
  simp only [srcOf, h]

theorem rulesOf_none (h : links key = none) : links.rulesOf key = [] := by simp only [rulesOf, h]

theorem live_iff : links.Live source dest ↔ dest ∈ links.rulesOf source ∧ links.srcOf dest = some source := by
  constructor
  · rintro ⟨series, destination, hseries, hdest, hdestination, hback⟩
    rw [rulesOf_series hseries, srcOf_series hdestination]
    exact ⟨hdest, hback⟩
  · rintro ⟨hdest, hback⟩
    unfold rulesOf at hdest
    unfold srcOf at hback
    split at hdest
    · next series hseries =>
        split at hback
        · next destination hdestination => exact ⟨series, destination, hseries, hdest, hdestination, hback⟩
        · cases hback
    · cases hdest

theorem rulesOf_update (value : Option LinkedValue) (x : KeyType) :
    rulesOf (Function.update links key value) x = if x = key then rulesOf (fun _ => value) x else links.rulesOf x := by
  unfold rulesOf
  split_ifs with hx
  · rw [hx, update_self]
  · rw [update_of_ne hx]

theorem srcOf_update (value : Option LinkedValue) (x : KeyType) :
    srcOf (Function.update links key value) x = if x = key then srcOf (fun _ => value) x else links.srcOf x := by
  unfold srcOf
  split_ifs with hx
  · rw [hx, update_self]
  · rw [update_of_ne hx]

@[simp] theorem rulesOf_set (x : KeyType) :
    (links.set key series).rulesOf x = if x = key then series.rules else links.rulesOf x := rulesOf_update _ x

@[simp] theorem srcOf_set (x : KeyType) :
    (links.set key series).srcOf x = if x = key then series.srcSeries else links.srcOf x := srcOf_update _ x

structure Based (links : Links) : Prop where
  named : links.Named
  finite : ∃ keys : Finset KeyType, ∀ key, links key ≠ none → key ∈ keys

namespace Based

theorem update (h : links.Based) (key : KeyType) (value : Option LinkedValue)
    (hvalue : ∀ series, value = some (.series series) → series.key = key) :
    Based (Function.update links key value) := by
  refine ⟨fun x series hseries => ?_, ?_⟩
  · by_cases hx : x = key
    · subst hx
      rw [update_self] at hseries
      exact hvalue series hseries
    · rw [update_of_ne hx] at hseries
      exact h.named x series hseries
  · obtain ⟨keys, hkeys⟩ := h.finite
    refine ⟨insert key keys, fun x hx => ?_⟩
    by_cases hxk : x = key
    · exact hxk ▸ Finset.mem_insert_self _ _
    · rw [update_of_ne hxk] at hx
      exact Finset.mem_insert_of_mem (hkeys x hx)

theorem set (h : links.Based) (hkey : series.key = key) : (links.set key series).Based :=
  h.update key _ fun _ heq => LinkedValue.series.inj (Option.some.inj heq) ▸ hkey

theorem remove (h : links.Based) (key : KeyType) : Based (Function.update links key none) := h.update key none nofun

end Based

/-! ### What links become -/

/-- No rule and no source is named anew. -/
def Shrinks (links links' : Links) : Prop :=
  (∀ x, links'.rulesOf x ⊆ links.rulesOf x) ∧ ∀ x y, links'.srcOf y = some x → links.srcOf y = some x

theorem Shrinks.acyclic (h : links.Shrinks links') (hacyclic : Acyclic links.Live) : Acyclic links'.Live := by
  refine hacyclic.mono fun x y hlive => ?_
  rw [live_iff] at hlive ⊢
  exact ⟨h.1 x hlive.1, h.2 x y hlive.2⟩

theorem shrinks_update {value : Option LinkedValue} (hvalue : ∀ series, value ≠ some (.series series)) (key : KeyType) :
    links.Shrinks (Function.update links key value) := by
  have hrules : rulesOf (fun _ => value) key = [] := by
    unfold rulesOf
    split
    · next series hseries => exact absurd hseries (hvalue series)
    · rfl
  have hsrc : srcOf (fun _ => value) key = none := by
    unfold srcOf
    split
    · next series hseries => exact absurd hseries (hvalue series)
    · rfl
  refine ⟨fun x => ?_, fun x y hy => ?_⟩
  · rw [rulesOf_update]
    split_ifs with hx
    · rw [hx, hrules]
      exact nil_subset _
    · exact List.Subset.refl _
  · rw [srcOf_update] at hy
    split_ifs at hy with hyk
    · rw [hyk, hsrc] at hy
      cases hy
    · exact hy

/-! ### Rules -/

section rules

variable {sourceSeries destSeries : LinkedSeries}

theorem mem_rules_addRule {x : KeyType} (hx : x ≠ dest)
    (hmem : x ∈ (((sourceSeries.removeCompactionRule dest).getD sourceSeries).addCompactionRule dest).rules) :
    x ∈ sourceSeries.rules := by
  unfold LinkedSeries.removeCompactionRule LinkedSeries.addCompactionRule at hmem
  rcases mem_append.mp hmem with hmem | hmem
  · split_ifs at hmem with hdest
    · exact mem_of_mem_erase hmem
    · exact hmem
  · exact absurd (mem_singleton.mp hmem) hx

theorem live_addRule (hsource : links source = some (.series sourceSeries))
    (hdest : links dest = some (.series destSeries))
    (x y : KeyType) (hlive : (links.addRule source dest sourceSeries destSeries).Live x y) :
    links.Live x y ∨ x = source ∧ y = dest := by
  have hsrc : (((sourceSeries.removeCompactionRule dest).getD sourceSeries).addCompactionRule dest).srcSeries =
      sourceSeries.srcSeries := by
    unfold LinkedSeries.removeCompactionRule LinkedSeries.addCompactionRule
    split_ifs <;> rfl
  rw [live_iff, addRule, rulesOf_set, srcOf_set, rulesOf_set, srcOf_set, hsrc] at hlive
  obtain ⟨hrule, hback⟩ := hlive
  by_cases hy : y = dest
  · rw [if_pos hy] at hback
    exact .inr ⟨(Option.some.inj hback).symm, hy⟩
  · refine .inl (live_iff.mpr ⟨?_, ?_⟩)
    · split_ifs at hrule with hxd hxs
      · rw [hxd, rulesOf_series hdest]
        exact hrule
      · rw [hxs, rulesOf_series hsource]
        exact mem_rules_addRule hy hrule
      · exact hrule
    · split_ifs at hback with hys
      · rw [hys, srcOf_series hsource]
        exact hback
      · exact hback

theorem based_addRule (h : links.Based) (hsource : links source = some (.series sourceSeries))
    (hdest : links dest = some (.series destSeries)) : (links.addRule source dest sourceSeries destSeries).Based := by
  refine (h.set ?_).set (h.named dest destSeries hdest)
  rw [← h.named source sourceSeries hsource]
  unfold LinkedSeries.removeCompactionRule LinkedSeries.addCompactionRule
  split_ifs <;> rfl

end rules

/-- The live rules of a keyspace lead nowhere twice. -/
structure Sound (links : Links) : Prop extends links.Based where
  acyclic : Acyclic links.Live

theorem Sound.shrinks (h : links.Sound) (hbased : links'.Based) (hshrinks : links.Shrinks links') : links'.Sound :=
  ⟨hbased, hshrinks.acyclic h.acyclic⟩

theorem getTimeseries_ok (h : links.getTimeseries key = .ok series) : links key = some (.series series) := by
  unfold getTimeseries at h
  split at h
  · cases h
  · next series' hseries =>
      rw [hseries, Except.ok.inj h]
  · cases h

theorem getTimeseries_error {e : RuleError} (h : links.getTimeseries key = .error e) : e ≠ .circularDependency := by
  unfold getTimeseries at h
  split at h
  · exact Except.error.inj h ▸ nofun
  · cases h
  · exact Except.error.inj h ▸ nofun

/-- A new rule closes no cycle, and one that is refused for a cycle would have. -/
theorem createRule_ends (h : links.Sound) (source dest : KeyType) :
    ∃ result, Ends (fun fuel => createRule fuel links source dest) result ∧
    (∀ links', result = .ok links' → links'.Sound) ∧
    (result = .error .circularDependency → ReflTransGen links.Live dest source) := by
  unfold createRule
  by_cases hne : source = dest
  · simp only [if_pos hne]
    exact ⟨_, Ends.pure _, nofun, nofun⟩
  simp only [if_neg hne]
  cases hsource : links.getTimeseries source with
  | error e => exact ⟨_, Ends.pure _, nofun, fun he => absurd (Except.error.inj he) (getTimeseries_error hsource)⟩
  | ok sourceSeries =>
  cases hdest : links.getTimeseries dest with
  | error e => exact ⟨_, Ends.pure _, nofun, fun he => absurd (Except.error.inj he) (getTimeseries_error hdest)⟩
  | ok destSeries =>
  dsimp only
  split_ifs with hlive
  · exact ⟨_, Ends.pure _, nofun, nofun⟩
  have hsource := getTimeseries_ok hsource
  have hdest := getTimeseries_ok hdest
  obtain ⟨keys, hkeys⟩ := h.finite
  obtain ⟨result, hends, hresult⟩ := checkNewRuleCircularDependency_ends source h.named hkeys hdest
  rcases hresult with rfl | ⟨rfl, hreach⟩ | ⟨rfl, hreach⟩
  · exact ⟨_, hends.bind (Ends.pure _), nofun, nofun⟩
  · exact ⟨_, hends.bind (Ends.pure _), nofun, fun _ => hreach⟩
  · refine ⟨_, hends.bind (Ends.pure _), fun links' hlinks' => ?_, nofun⟩
    rw [← Except.ok.inj hlinks']
    exact ⟨based_addRule h.toBased hsource hdest, h.acyclic.addEdge hreach (live_addRule hsource hdest)⟩

theorem tryGetTimeseries_some (h : links.tryGetTimeseries key = .ok (some series)) : links key = some
    (.series series) := by
  unfold tryGetTimeseries at h
  split at h
  · cases h
  · next series' hseries => rw [hseries, Option.some.inj (Except.ok.inj h)]
  · cases h

theorem shrinks_set {series' : LinkedSeries} (hseries : links key = some (.series series))
    (hrules : series'.rules ⊆ series.rules)
    (hsrc : ∀ x, series'.srcSeries = some x → series.srcSeries = some x) : links.Shrinks (links.set key series') := by
  refine ⟨fun x => ?_, fun x y hy => ?_⟩
  · rw [rulesOf_set]
    split_ifs with hx
    · rw [hx, rulesOf_series hseries]
      exact hrules
    · exact List.Subset.refl _
  · rw [srcOf_set] at hy
    split_ifs at hy with hyk
    · rw [hyk, srcOf_series hseries]
      exact hsrc x hy
    · exact hy

theorem Shrinks.trans {links'' : Links} (h : links.Shrinks links') (h' : links'.Shrinks links'') :
    links.Shrinks links'' :=
  ⟨fun x => List.Subset.trans (h'.1 x) (h.1 x), fun x y hy => h.2 x y (h'.2 x y hy)⟩

theorem Sound.deleteRule (h : links.Sound) (hdelete : links.deleteRule source dest = .ok links') : links'.Sound := by
  unfold Links.deleteRule at hdelete
  split_ifs at hdelete with hne
  obtain ⟨sourceSeries, hsource, hdelete⟩ := Except.ok_of_bind hdelete
  obtain ⟨found, hdest, hdelete⟩ := Except.ok_of_bind hdelete
  cases found with
  | none => cases hdelete
  | some destSeries =>
  have hsource := getTimeseries_ok hsource
  have hdest := tryGetTimeseries_some hdest
  cases hrem : sourceSeries.removeCompactionRule dest with
  | none =>
    simp only [hrem] at hdelete
    cases hdelete
  | some sourceSeries' =>
  simp only [hrem] at hdelete
  unfold LinkedSeries.removeCompactionRule at hrem
  split_ifs at hrem with hmem
  obtain rfl := Option.some.inj hrem
  have hcut : links.Shrinks (links.set source { sourceSeries with rules := sourceSeries.rules.erase dest }) :=
    shrinks_set hsource erase_subset fun _ => id
  have hbased : (links.set source { sourceSeries with rules := sourceSeries.rules.erase dest }).Based :=
    h.toBased.set (h.named source sourceSeries hsource)
  split_ifs at hdelete with hback
  · rw [← Except.ok.inj hdelete]
    have hkept : links.set source { sourceSeries with rules := sourceSeries.rules.erase dest } dest =
        some (.series destSeries) := by
      rw [Links.set, update_of_ne (Ne.symm hne), hdest]
    exact h.shrinks (hbased.set (h.named dest destSeries hdest))
      (hcut.trans (shrinks_set hkept (List.Subset.refl _) nofun))
  · rw [← Except.ok.inj hdelete]
    exact h.shrinks hbased hcut

/-! ### New series -/

/-- The series created for default rules: each was not there, has no rules and names the key it is made for. -/
structure Created (key : KeyType) (links : Links) (made : Links × List KeyType) : Prop where
  rules : ∀ x, made.1.rulesOf x = links.rulesOf x
  src : ∀ y, made.1.srcOf y = if y ∈ made.2 then some key else links.srcOf y
  free : ∀ dest ∈ made.2, links dest = none
  based : made.1.Based

theorem created_createDestinations (hbased : links.Based) (dests : List KeyType) :
    Created key links (createDestinations key links dests) := by
  induction dests generalizing links with
  | nil => exact ⟨fun _ => rfl, fun _ => by rw [createDestinations, if_neg not_mem_nil], nofun, hbased⟩
  | cons dest dests ih =>
    unfold createDestinations
    cases hdest : links dest with
    | some value => exact ih hbased
    | none =>
      have hset : (links.set dest ⟨dest, some key, []⟩).Based := hbased.set rfl
      have hmade := ih hset
      refine ⟨fun x => ?_, fun y => ?_, fun dest' hdest' => ?_, hmade.based⟩
      · rw [hmade.rules, rulesOf_set]
        split_ifs with hx
        · rw [hx, rulesOf_none hdest]
        · rfl
      · rw [hmade.src, srcOf_set]
        by_cases hy : y = dest
        · simp [hy]
        · simp [hy]
      · rcases mem_cons.mp hdest' with rfl | hmem
        · exact hdest
        · have hfree := hmade.free dest' hmem
          by_cases heq : dest' = dest
          · exact heq ▸ hdest
          · rwa [Links.set, update_of_ne heq] at hfree

theorem Sound.createAndStoreSeries (h : links.Sound) {dests : List KeyType}
    (hcreate : links.createAndStoreSeries key dests = .ok links') : links'.Sound := by
  unfold Links.createAndStoreSeries at hcreate
  split at hcreate
  · cases hcreate
  next hnone =>
  have hset : (links.set key ⟨key, none, []⟩).Based := h.toBased.set rfl
  have hmade : Created key _ _ := created_createDestinations hset dests
  generalize createDestinations key (links.set key ⟨key, none, []⟩) dests = made at hmade hcreate
  obtain ⟨made, rules⟩ := made
  rw [← Except.ok.inj hcreate]
  refine ⟨hmade.based.set rfl, h.acyclic.addNode (k := key) (.inl fun x hlive => ?_) fun x y hx hy hlive => ?_⟩
  · have hback := (live_iff.mp hlive).2
    rw [srcOf_set, if_pos rfl] at hback
    cases hback
  · obtain ⟨hrule, hback⟩ := live_iff.mp hlive
    rw [rulesOf_set, if_neg hx, hmade.rules, rulesOf_set, if_neg hx] at hrule
    rw [srcOf_set, if_neg hy, hmade.src, srcOf_set, if_neg hy] at hback
    split_ifs at hback with hmem
    · exact absurd (Option.some.inj hback).symm hx
    · exact live_iff.mpr ⟨hrule, hback⟩

/-! ### Series that come from elsewhere -/

/-- A series comes to a key and is not both the source and the destination of live rules there. -/
def ArrivesAtEnd (links : Links) (key : KeyType) (value : LinkedValue) : Prop :=
  (∀ x, ¬ (links.arrive key value).Live x key) ∨ ∀ y, ¬ (links.arrive key value).Live key y

theorem arrive_of_ne (value : LinkedValue) {x : KeyType} (hx : x ≠ key) : links.arrive key value x = links x := by
  unfold arrive indexLoadedSeries
  rw [update_self]
  cases value with
  | series series =>
    dsimp only
    rw [Links.set, update_of_ne hx, update_of_ne hx]
  | other => exact update_of_ne hx _ _

theorem based_arrive (h : links.Based) (value : LinkedValue) : (links.arrive key value).Based := by
  unfold arrive indexLoadedSeries
  cases value with
  | other =>
    rw [update_self]
    exact h.update key _ nofun
  | series series =>
    rw [update_self]
    dsimp only
    unfold Links.set
    rw [update_idem]
    exact h.set rfl

theorem Sound.arrive (h : links.Sound) {value : LinkedValue} (hends : links.ArrivesAtEnd key value) :
    (links.arrive key value).Sound := by
  refine ⟨based_arrive h.toBased value, h.acyclic.addNode hends fun x y hx hy hlive => ?_⟩
  obtain ⟨series, destination, hseries, hdest, hdestination, hback⟩ := hlive
  rw [arrive_of_ne value hx] at hseries
  rw [arrive_of_ne value hy] at hdestination
  exact ⟨series, destination, hseries, hdest, hdestination, hback⟩

theorem Sound.remove (h : links.Sound) (key : KeyType) : Sound (Function.update links key none) :=
  h.shrinks (h.toBased.remove key) (shrinks_update (by simp) key)

theorem Sound.put (h : links.Sound) (key : KeyType) : Sound (Function.update links key (some .other)) :=
  h.shrinks (h.toBased.update key _ nofun) (shrinks_update (by simp) key)

/-! ### Renamed series -/

section renames

variable {oldKey newKey : KeyType}

/-- The keys after a rename, before the partners of the series are linked to its new name. -/
def renamed (links : Links) (oldKey newKey : KeyType) (value : LinkedValue) : Links :=
  Function.update (Function.update links oldKey none) newKey (some value)

theorem mem_rulesOf_relinkSource {x y : KeyType} (hmem : y ∈ (links.relinkSource series oldKey).rulesOf x) :
    y ∈ links.rulesOf x ∨ y = series.key ∧ x ≠ series.key ∧ series.srcSeries = some x ∧ oldKey ∈ links.rulesOf x := by
  unfold relinkSource at hmem
  split at hmem
  · exact .inl hmem
  next sourceKey hsrc =>
  split_ifs at hmem with hself
  · exact .inl hmem
  split at hmem
  · next source hsource =>
      rw [rulesOf_set] at hmem
      split_ifs at hmem with hx
      · obtain ⟨dest, hdest, hy⟩ := mem_map.mp hmem
        subst hx
        rw [rulesOf_series hsource]
        split_ifs at hy with hold
        · exact .inr ⟨hy.symm, hself, hsrc, hold ▸ hdest⟩
        · exact .inl (hy ▸ hdest)
      · exact .inl hmem
  · exact .inl hmem

theorem srcOf_relinkSource (y : KeyType) : (links.relinkSource series oldKey).srcOf y = links.srcOf y := by
  unfold relinkSource
  split
  · rfl
  split_ifs with hself
  · rfl
  split
  · next source hsource =>
      rw [srcOf_set]
      split_ifs with hy
      · rw [hy, srcOf_series hsource]
      · rfl
  · rfl

theorem based_relinkSource (series : LinkedSeries) (oldKey : KeyType) (h : links.Based) :
    (links.relinkSource series oldKey).Based := by
  unfold relinkSource
  split
  · exact h
  split_ifs with hself
  · exact h
  split
  · next source hsource => exact h.set (h.named _ source hsource)
  · exact h

theorem rulesOf_relinkDestination (x : KeyType) : (relinkDestination newKey oldKey links dest).rulesOf x =
    links.rulesOf x := by
  unfold relinkDestination
  split
  · next series hseries =>
      split_ifs with hsrc
      · rw [rulesOf_set]
        split_ifs with hx
        · rw [hx, rulesOf_series hseries]
        · rfl
      · rfl
  · rfl

theorem srcOf_relinkDestination {x y : KeyType} (hy : (relinkDestination newKey oldKey links dest).srcOf y = some x) :
    links.srcOf y = some x ∨ x = newKey ∧ y = dest ∧ links.srcOf y = some oldKey := by
  unfold relinkDestination at hy
  split at hy
  · next series hseries =>
      split_ifs at hy with hsrc
      · rw [srcOf_set] at hy
        split_ifs at hy with hyd
        · subst hyd
          exact .inr ⟨(Option.some.inj hy).symm, rfl, (srcOf_series hseries).trans hsrc⟩
        · exact .inl hy
      · exact .inl hy
  · exact .inl hy

theorem based_relinkDestination (h : links.Based) : (relinkDestination newKey oldKey links dest).Based := by
  unfold relinkDestination
  split
  · next series hseries =>
      split_ifs with hsrc
      · exact h.set (h.named _ series hseries)
      · exact h
  · exact h

theorem relinkDestinations_spec (dests : List KeyType) (hnew : newKey ≠ oldKey) (hbased : links.Based) :
    (∀ x, (dests.foldl (relinkDestination newKey oldKey) links).rulesOf x = links.rulesOf x) ∧
    (∀ x y, (dests.foldl (relinkDestination newKey oldKey) links).srcOf y = some x →
    links.srcOf y = some x ∨ x = newKey ∧ y ∈ dests ∧ links.srcOf y = some oldKey) ∧
    (dests.foldl (relinkDestination newKey oldKey) links).Based := by
  induction dests generalizing links with
  | nil => exact ⟨fun _ => rfl, fun _ _ => .inl, hbased⟩
  | cons dest dests ih =>
    obtain ⟨hrules, hsrc, hbased'⟩ := ih (based_relinkDestination hbased)
    refine ⟨fun x => (hrules x).trans (rulesOf_relinkDestination x), fun x y hy => ?_, hbased'⟩
    rcases hsrc x y hy with hy | ⟨hx, hmem, hy⟩
    · rcases srcOf_relinkDestination hy with hy | ⟨hx, rfl, hold⟩
      · exact .inl hy
      · exact .inr ⟨hx, mem_cons_self, hold⟩
    · rcases srcOf_relinkDestination hy with hy | ⟨hx', -, -⟩
      · exact .inr ⟨hx, mem_cons_of_mem _ hmem, hy⟩
      · exact absurd hx'.symm hnew

/-- A series is renamed to a name that no live rule leads to or leaves before its partners are linked to it. -/
def TakesFreeName (links : Links) (oldKey newKey : KeyType) : Prop :=
  ∀ series, links oldKey = some (.series series) → oldKey ≠ newKey →
    oldKey ≠ [] ∧ ∀ x, ¬ (links.renamed oldKey newKey (.series series)).Live x newKey ∧
      ¬ (links.renamed oldKey newKey (.series series)).Live newKey x

theorem rulesOf_renamed (x : KeyType) : (links.renamed oldKey newKey (.series series)).rulesOf x =
    if x = newKey then series.rules else if x = oldKey then [] else links.rulesOf x := by
  rw [renamed, rulesOf_update, rulesOf_update]
  rfl

theorem srcOf_renamed (x : KeyType) : (links.renamed oldKey newKey (.series series)).srcOf x =
    if x = newKey then series.srcSeries else if x = oldKey then none else links.srcOf x := by
  rw [renamed, srcOf_update, srcOf_update]
  rfl

theorem live_handleKeyRename_cases (hne : oldKey ≠ newKey)
    (hbased : ((links.renamed oldKey newKey (.series series)).set newKey { series with key := newKey }).Based) :
    (handleKeyRename (links.renamed oldKey newKey (.series series)) oldKey newKey).Based ∧
    ∀ x y, (handleKeyRename (links.renamed oldKey newKey (.series series)) oldKey newKey).Live x y →
    (y ∈ (links.renamed oldKey newKey (.series series)).rulesOf x ∨ y = newKey ∧ x ≠ newKey ∧
    series.srcSeries = some x ∧ oldKey ∈ (links.renamed oldKey newKey (.series series)).rulesOf x) ∧
    ((links.renamed oldKey newKey (.series series)).srcOf y = some x ∨ x = newKey ∧ y ∈ series.rules ∧ y ≠ newKey ∧
    (links.renamed oldKey newKey (.series series)).srcOf y = some oldKey) := by
  have hrules : ∀ x, ((links.renamed oldKey newKey (.series series)).set newKey { series with key := newKey }).rulesOf
    x =
      (links.renamed oldKey newKey (.series series)).rulesOf x := by
    intro x
    rw [rulesOf_set, rulesOf_renamed]
    split_ifs <;> rfl
  have hsrc : ∀ x, ((links.renamed oldKey newKey (.series series)).set newKey { series with key := newKey }).srcOf x =
      (links.renamed oldKey newKey (.series series)).srcOf x := by
    intro x
    rw [srcOf_set, srcOf_renamed]
    split_ifs <;> rfl
  have hstored : links.renamed oldKey newKey (.series series) newKey = some (.series series) := update_self ..
  unfold handleKeyRename
  rw [hstored]
  unfold relinkRenamedSeries
  have hrelinked := based_relinkSource { series with key := newKey } oldKey hbased
  obtain ⟨hrules', hsrc', hbased'⟩ := relinkDestinations_spec (series.rules.filter (· ≠ newKey)) hne.symm hrelinked
  refine ⟨hbased', fun x y hlive => ?_⟩
  obtain ⟨hrule, hback⟩ := live_iff.mp hlive
  constructor
  · rw [hrules'] at hrule
    rw [← hrules]
    exact mem_rulesOf_relinkSource hrule
  · rw [← hsrc]
    rcases hsrc' x y hback with hback | ⟨hx, hmem, hback⟩
    · exact .inl (by rwa [srcOf_relinkSource] at hback)
    · obtain ⟨hmem, hy⟩ := mem_filter.mp hmem
      exact .inr ⟨hx, hmem, of_decide_eq_true hy, by rwa [srcOf_relinkSource] at hback⟩

/-- Under its new name the series has the live rules that it had under the old one. -/
theorem live_handleKeyRename (hseries : links oldKey = some (.series series)) (hne : oldKey ≠ newKey)
    (hbased : ((links.renamed oldKey newKey (.series series)).set newKey { series with key := newKey }).Based)
    (hfree : ∀ x, ¬ (links.renamed oldKey newKey (.series series)).Live x newKey ∧
    ¬ (links.renamed oldKey newKey (.series series)).Live newKey x) (x y : KeyType)
    (hlive : (handleKeyRename (links.renamed oldKey newKey (.series series)) oldKey newKey).Live x y) :
    links.Live (if x = newKey then oldKey else x) (if y = newKey then oldKey else y) := by
  obtain ⟨hrule, hback⟩ := (live_handleKeyRename_cases hne hbased).2 x y hlive
  rcases hrule with hrule | ⟨rfl, hx, hsrc, hrule⟩
  · rcases hback with hback | ⟨rfl, hmem, hy, hback⟩
    · have hold := live_iff.mpr ⟨hrule, hback⟩
      have hx : x ≠ newKey := fun heq => (hfree y).2 (heq ▸ hold)
      have hy : y ≠ newKey := fun heq => (hfree x).1 (heq ▸ hold)
      rw [rulesOf_renamed, if_neg hx] at hrule
      rw [srcOf_renamed, if_neg hy] at hback
      rw [if_neg hx, if_neg hy, live_iff]
      split_ifs at hrule hback with hxo hyo
      · cases hrule
      · exact ⟨hrule, hback⟩
    · -- a destination that named the old key
      rw [srcOf_renamed, if_neg hy] at hback
      split_ifs at hback with hyo
      rw [if_pos rfl, if_neg hy, live_iff, rulesOf_series hseries]
      exact ⟨hmem, hback⟩
  · -- the source whose rule named the old key
    rw [rulesOf_renamed, if_neg hx] at hrule
    split_ifs at hrule with hxo
    · cases hrule
    · rw [if_neg hx, if_pos rfl, live_iff, srcOf_series hseries]
      exact ⟨hrule, hsrc⟩

theorem Sound.rename (h : links.Sound) (hfree : links.TakesFreeName oldKey newKey) :
    (links.rename oldKey newKey).Sound := by
  unfold Links.rename
  cases hold : links oldKey with
  | none => exact h
  | some value =>
    dsimp only
    split_ifs with hne hempty
    · exact h
    · cases value with
      | series series => exact absurd hempty (hfree series hold hne).1
      | other => exact (h.remove oldKey).put newKey
    · cases value with
      | series series =>
        have hbased : ((links.renamed oldKey newKey (.series series)).set newKey { series with key := newKey }).Based
            := by
          unfold renamed Links.set
          rw [update_idem]
          exact (h.toBased.remove oldKey).set rfl
        exact ⟨(live_handleKeyRename_cases hne hbased).1,
          h.acyclic.map _ (live_handleKeyRename hold hne hbased (hfree series hold hne).2)⟩
      | other =>
        unfold handleKeyRename
        rw [update_self]
        exact (h.remove oldKey).put newKey

end renames

end Links

/-! ### Runs -/

namespace RuleStore

variable {store : RuleStore}

/-- What a change needs: a series that is moved or restored is not both source and destination of live rules where it
comes to, and one that is renamed takes a name that is free of live rules. -/
def Allowed (store : RuleStore) : RuleChange → Prop
  | .rename db oldKey newKey => (store.dbs db).TakesFreeName oldKey newKey
  | .move db key newDb => ∀ value, store.dbs db key = some value → (store.dbs newDb).ArrivesAtEnd key value
  | .restore db key dump _ => ∀ value, store.dumps[dump]? = some value → (store.dbs db).ArrivesAtEnd key value
  | _ => True

def AllowedRun (store : RuleStore) : List RuleChange → Prop
  | [] => True
  | change :: changes => store.Allowed change ∧
      ∀ store', Ends (fun fuel => store.apply fuel change) store' → store'.AllowedRun changes

def Sound (store : RuleStore) : Prop := ∀ db, (store.dbs db).Sound

section

variable (h : store.Sound)
include h

theorem Sound.setDb {db : Nat} {links : Links} (hlinks : links.Sound) : (store.setDb db links).Sound := by
  intro db'
  unfold RuleStore.setDb
  dsimp only
  by_cases hdb : db' = db
  · subst hdb
    rw [update_self]
    exact hlinks
  · rw [update_of_ne hdb]
    exact h db'

theorem Sound.setOk {db : Nat} {result : Except RuleError Links}
    (hresult : ∀ links, result = .ok links → links.Sound) : (store.setOk db result).Sound := by
  cases result with
  | error e => exact h
  | ok links => exact h.setDb (hresult links rfl)

theorem Sound.move {db newDb : Nat} {key : KeyType}
    (hends : ∀ value, store.dbs db key = some value → (store.dbs newDb).ArrivesAtEnd key value) :
    (store.move db key newDb).Sound := by
  unfold RuleStore.move
  split
  · next value hvalue _ =>
      split_ifs with hdb
      · exact h
      · exact (h.setDb ((h db).remove key)).setDb ((h newDb).arrive (hends value hvalue))
  · exact h

theorem Sound.restore {db dump : Nat} {key : KeyType} {replace : Bool}
    (hends : ∀ value, store.dumps[dump]? = some value → (store.dbs db).ArrivesAtEnd key value) :
    (store.restore db key dump replace).Sound := by
  unfold RuleStore.restore
  split
  · exact h
  · next value hvalue =>
      split_ifs
      · exact h
      · exact h.setDb ((h db).arrive (hends value hvalue))

theorem Sound.apply {change : RuleChange} (hallowed : store.Allowed change) :
    ∃ store', Ends (fun fuel => store.apply fuel change) store' ∧ store'.Sound := by
  cases change with
  | create db key dests => exact ⟨_, Ends.pure _, h.setOk fun links hlinks => (h db).createAndStoreSeries hlinks⟩
  | createRule db source dest =>
    obtain ⟨result, hends, hok, -⟩ := Links.createRule_ends (h db) source dest
    exact ⟨_, hends.map (store.setOk db), h.setOk hok⟩
  | deleteRule db source dest => exact ⟨_, Ends.pure _, h.setOk fun links hlinks => (h db).deleteRule hlinks⟩
  | delete db key => exact ⟨_, Ends.pure _, h.setDb ((h db).remove key)⟩
  | put db key => exact ⟨_, Ends.pure _, h.setDb ((h db).put key)⟩
  | rename db oldKey newKey => exact ⟨_, Ends.pure _, h.setDb ((h db).rename hallowed)⟩
  | move db key newDb => exact ⟨_, Ends.pure _, h.move hallowed⟩
  | dump db key => exact ⟨_, Ends.pure _, h⟩
  | restore db key dump replace => exact ⟨_, Ends.pure _, h.restore hallowed⟩

theorem Sound.run (changes : List RuleChange) (hallowed : store.AllowedRun changes) :
    ∃ store', Ends (fun fuel => store.run fuel changes) store' ∧ store'.Sound := by
  induction changes generalizing store with
  | nil => exact ⟨store, Ends.pure _, h⟩
  | cons change changes ih =>
    obtain ⟨store₁, hends₁, hsound₁⟩ := h.apply hallowed.1
    obtain ⟨store₂, hends₂, hsound₂⟩ := ih hsound₁ (hallowed.2 store₁ hends₁)
    refine ⟨store₂, ?_, hsound₂⟩
    exact hends₁.bind hends₂

end

theorem sound_start : start.Sound := by
  intro db
  refine ⟨⟨nofun, ∅, fun key hkey => absurd rfl hkey⟩, fun key hcycle => ?_⟩
  obtain ⟨_, ⟨_, _, hseries, -⟩, -⟩ := TransGen.head'_iff.mp hcycle
  cases hseries

/-- In every run of allowed changes the live rules of each database form no cycle, and a rule is refused as circular
only if its destination leads to its source by live rules. -/
theorem liveRules_acyclic (changes : List RuleChange) (hallowed : start.AllowedRun changes) :
    ∃ store, Ends (fun fuel => start.run fuel changes) store ∧ (∀ db, Acyclic (store.dbs db).Live) ∧
      ∀ db source dest, Ends (fun fuel => (store.dbs db).createRule fuel source dest) (.error .circularDependency) →
        ReflTransGen (store.dbs db).Live dest source := by
  obtain ⟨store, hends, hsound⟩ := sound_start.run changes hallowed
  refine ⟨store, hends, fun db => (hsound db).acyclic, fun db source dest href => ?_⟩
  obtain ⟨result, hends', -, hcircular⟩ := Links.createRule_ends (hsound db) source dest
  exact hcircular (hends'.unique href)

/-- A rule is made and its source renamed. -/
theorem liveRules_acyclic_renamed_source : ∃ store,
    Ends (fun fuel => start.run fuel [.create 0 [0x61] [[0x62]], .rename 0 [0x61] [0x63]]) store ∧
      (∀ db, Acyclic (store.dbs db).Live) ∧
      ∀ db source dest, Ends (fun fuel => (store.dbs db).createRule fuel source dest) (.error .circularDependency) →
        ReflTransGen (store.dbs db).Live dest source := by
  refine liveRules_acyclic _ ⟨trivial, fun store hstore => ⟨?_, fun _ _ => trivial⟩⟩
  obtain rfl := hstore.unique (Ends.pure _)
  intro series hseries _
  obtain rfl := LinkedValue.series.inj (Option.some.inj hseries)
  refine ⟨by decide, fun x => ⟨fun hlive => ?_, fun hlive => ?_⟩⟩
  · cases (Links.live_iff.mp hlive).2
  · obtain ⟨hrule, hback⟩ := Links.live_iff.mp hlive
    obtain rfl : x = [0x62] := mem_singleton.mp hrule
    revert hback
    decide

/-- The middle of three series linked in a row is away in another database while the row is closed to a ring. -/
def movedAndBack : List RuleChange :=
  [.create 0 [0x61] [], .create 0 [0x62] [], .create 0 [0x63] [], .createRule 0 [0x61] [0x62],
    .createRule 0 [0x62] [0x63],
    .move 0 [0x62] 1, .createRule 0 [0x63] [0x61], .move 1 [0x62] 0]

theorem move_closes_cycle : ∃ store, Ends (fun fuel => start.run fuel movedAndBack) store ∧
    TransGen (store.dbs 0).Live [0x61] [0x61] := by
  refine ⟨(start.run 4 movedAndBack).getD start, ⟨4, fun fuel hfuel => ?_⟩, ?_⟩
  · obtain ⟨k, rfl⟩ : ∃ k, fuel = k + 4 := ⟨fuel - 4, by omega⟩
    rfl
  · have hab : Links.Live (((start.run 4 movedAndBack).getD start).dbs 0) [0x61] [0x62] :=
      Links.live_iff.mpr (by decide +kernel)
    have hbc : Links.Live (((start.run 4 movedAndBack).getD start).dbs 0) [0x62] [0x63] :=
      Links.live_iff.mpr (by decide +kernel)
    have hca : Links.Live (((start.run 4 movedAndBack).getD start).dbs 0) [0x63] [0x61] :=
      Links.live_iff.mpr (by decide +kernel)
    exact ((TransGen.single hab).tail hbc).tail hca

end RuleStore

end ValkeyTimeSeries
