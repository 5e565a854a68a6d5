import E2etest.RunWord

/-!
# What a filter list includes

* `filters_sound_iff`: when every test `run` includes is matched by some filter.
* `filters_union_iff`: when the tests included under two lists together are those included under
  either.
* `filters_insensitive`: the order and the repetition of the filters change no answer.

The first two fail on some inputs because an empty map, and an empty set of names in it, mean that there is
no restriction.
-/

namespace E2etest

open Text

/-- The filter string matches the test with this name below the root. -/
def matchesName (f name : Str) : Bool := matchesTest f (join (nameGroup name)) (nameTest name)

/-- On a tree whose names hold no `:` this is about the group path and the name of the test. -/
theorem matchesName_leaf {g : Group} (h : g.ColonFree) {n : Node} (hn : n ∈ g.leaves) (f : Str) :
    matchesName f n.nameBelow = matchesTest f n.groupPath n.name := by
  obtain ⟨hg, ht⟩ := Group.nameParts h hn
  unfold matchesName
  rw [hg, ht]
  rfl

theorem matchesTest_of_group {f gp t : Str} (h : Filter.hit f gp t = .group) (t' : Str) :
    matchesTest f gp t' = true := by
  unfold Filter.hit at h
  unfold matchesTest
  cases hr : rsplitOnce f with
  | none =>
    by_cases hg : (FilterMatcher.new f).isMatch gp = true
    · simp [hg]
    · by_cases hm : (FilterMatcher.new f).isMatch t = true <;> simp [hr, hg, hm] at h
  | some p =>
    by_cases hg : (FilterMatcher.new p.1).isMatch gp = true
    · by_cases ht : FilterMatcher.new p.2 = .any
      · simp [hg, ht]
      · by_cases hm : (FilterMatcher.new p.2).isMatch t = true <;> simp [hr, hg, ht, hm] at h
    · simp [hr, hg] at h

/-- A test let through by a filter that restricts is matched by some string. -/
theorem exists_matchesName {fs : List Str} {g : Group} {name : Str} (hr : Restricts fs g)
    (hc : considersName (.new fs g) g.name name = true) : ∃ f ∈ fs, matchesName f name = true := by
  obtain h | ⟨-, ⟨f, hf, t, hp, hm⟩, hpick⟩ := (considersName_iff fs g name).mp hc
  · exact absurd hr h
  obtain hno | ⟨f', hf', -, hhit⟩ := hpick
  · refine ⟨f, hf, matchesTest_of_group (t := t) ?_ _⟩
    have hmiss := (hit_ne_miss f _ t).mpr hm
    cases hh : Filter.hit f (join (nameGroup name)) t with
    | miss => exact absurd hh hmiss
    | group => rfl
    | test => exact absurd ⟨f, hf, hp, hh⟩ (hno t)
  · exact ⟨f', hf', (hit_ne_miss _ _ _).mp (by rw [hhit]; exact Hit.noConfusion)⟩

/-- Every test `run` includes is matched by some filter; when no filter matches any test, no test
is included, and the runner does nothing and does not report success. -/
def FiltersSound (config : Config) (g : Group) (x : Sys) : Prop :=
  (∀ name ∈ g.testNames, g.name ++ sep ++ name ∈ x.state.statistics.included →
    ∃ f ∈ config.filters, matchesName f name = true) ∧
  ((∀ f ∈ config.filters, ∀ name ∈ g.testNames, matchesName f name = false) →
    x.state.statistics.included = ∅ ∧ ∀ {G t y}, Sys.Run G x t y →
      calls t = [] ∧ y.state.statistics.isSuccess = false)

section Sound

variable {config : Config} {g : Group} {x : Sys}

theorem mem_included_iff (hx : run config g = some x) (name : Str) :
    g.name ++ sep ++ name ∈ x.state.statistics.included ↔
      name ∈ g.testNames ∧ considersName (.new config.filters g) g.name name = true := by
  rw [(run_spec hx).2.2.1]
  constructor
  · rintro ⟨name', hn, hc, he⟩
    obtain rfl := Filter.key_inj he
    exact ⟨hn, hc⟩
  · rintro ⟨hn, hc⟩
    exact ⟨name, hn, hc, rfl⟩

/-- A run that includes nothing does nothing. -/
theorem run_of_included_empty (hx : run config g = some x)
    (he : x.state.statistics.included = ∅) {G : FixtureGraph} {t : List Label} {y : Sys}
    (h : Sys.Run G x t y) : calls t = [] ∧ y.state.statistics.isSuccess = false := by
  obtain ⟨-, hp⟩ | ⟨hne, -⟩ := (run_spec hx).2.2.2
  · have hexec := (Sys.run_split h).1
    rw [hp] at hexec
    refine ⟨(Async.Prog.exec_pure hexec).1, ?_⟩
    unfold Statistics.isSuccess
    rw [(run_statistics hx h).1, he]
    rfl
  · exact absurd he hne

/-- **Filters are sound** exactly when some filter matches a test of a subgroup, or every test is
matched by some filter. -/
theorem filters_sound_iff (hx : run config g = some x) :
    FiltersSound config g x ↔ Restricts config.filters g ∨
      ∀ name ∈ g.testNames, ∃ f ∈ config.filters, matchesName f name = true := by
  constructor
  · rintro ⟨hs, -⟩
    by_cases hr : Restricts config.filters g
    · exact Or.inl hr
    · refine Or.inr fun name hn => hs name hn ((mem_included_iff hx name).mpr ⟨hn, ?_⟩)
      exact (considersName_iff _ g name).mpr (Or.inl hr)
  · intro h
    have hs : ∀ name ∈ g.testNames, g.name ++ sep ++ name ∈ x.state.statistics.included →
        ∃ f ∈ config.filters, matchesName f name = true := by
      intro name hn hinc
      obtain hr | hall := h
      · exact exists_matchesName hr ((mem_included_iff hx name).mp hinc).2
      · exact hall name hn
    refine ⟨hs, fun hno => ?_⟩
    have he : x.state.statistics.included = ∅ := by
      refine Finset.eq_empty_iff_forall_notMem.mpr fun p hp => ?_
      obtain ⟨name, hn, -, rfl⟩ := ((run_spec hx).2.2.1 p).mp hp
      obtain ⟨f, hf, hm⟩ := hs name hn hp
      rw [hno f hf name hn] at hm
      cases hm
    exact ⟨he, fun h => run_of_included_empty hx he h⟩

end Sound

/-- A root group `r` with a subgroup `a`, which has the tests `b` and `c`. -/
def twoTests : Group :=
  .mk ['r'] { typeId := 0 } [] [.mk ['a'] { typeId := 1 }
    [{ name := ['b'], fixture := { typeId := 2 } }, { name := ['c'], fixture := { typeId := 2 } }] []]

/-- A filter that restricts: `b` alone is selected. -/
theorem filters_sound_twoTests : ∃ x, run { filters := [['b']] } twoTests = some x ∧
    (FiltersSound { filters := [['b']] } twoTests x ↔ Restricts [['b']] twoTests ∨
      ∀ name ∈ twoTests.testNames, ∃ f ∈ [['b']], matchesName f name = true) := by
  obtain ⟨x, hx⟩ := run_isSome { filters := [['b']] } twoTests
  exact ⟨x, hx, filters_sound_iff hx⟩

/-- **A filter that matches nothing includes everything.** -/
theorem unmatched_filter_includes : ∃ x, run { filters := [['z']] } twoTests = some x ∧
    ¬ FiltersSound { filters := [['z']] } twoTests x := by
  obtain ⟨x, hx⟩ := run_isSome { filters := [['z']] } twoTests
  refine ⟨x, hx, fun h => ?_⟩
  have hinc := (mem_included_iff hx ['a', ':', ':', 'b']).mpr (by decide)
  obtain ⟨he, -⟩ := h.2 (by decide)
  rw [he] at hinc
  exact absurd hinc (Finset.notMem_empty _)

/-! ## Order and repetition -/

/-- **The order of the filters and their repetition change no answer.** -/
theorem filters_insensitive (fs : List Str) (g : Group) :
    (∀ fs', fs'.Perm fs → Filter.Agrees (.new fs' g) (.new fs g)) ∧
      ∀ fs', fs.Sublist fs' → fs' ⊆ fs → Filter.Agrees (.new fs' g) (.new fs g) := by
  constructor
  · intro fs' h
    exact Filter.new_agrees (fun s => h.mem_iff) g
  · intro fs' h h'
    exact Filter.new_agrees (fun s => ⟨fun hs => h' hs, fun hs => h.subset hs⟩) g

/-- Two filters in the other order, and one of them twice. -/
theorem filters_insensitive_twoTests :
    Filter.Agrees (.new [['c'], ['b']] twoTests) (.new [['b'], ['c']] twoTests) ∧
      Filter.Agrees (.new [['b'], ['c'], ['b']] twoTests) (.new [['b'], ['c']] twoTests) := by
  obtain ⟨hperm, hrepeat⟩ := filters_insensitive [['b'], ['c']] twoTests
  exact ⟨hperm _ (List.Perm.swap _ _ _), hrepeat _ (by decide) (by decide)⟩

/-! ## Two lists together -/

section Union

variable {fs gs : List Str} {g : Group}

theorem restricts_append : Restricts (fs ++ gs) g ↔ Restricts fs g ∨ Restricts gs g := by
  simp only [Restricts, List.mem_append, or_and_right, exists_or]

theorem touches_append {gp : Str} :
    Touches (fs ++ gs) g gp ↔ Touches fs g gp ∨ Touches gs g gp := by
  simp only [Touches, List.mem_append, or_and_right, exists_or]

theorem picks_append {gp t : Str} :
    Picks (fs ++ gs) g gp t ↔ Picks fs g gp t ∨ Picks gs g gp t := by
  simp only [Picks, List.mem_append, or_and_right, exists_or]

theorem Picks.touches {gp t : Str} (h : Picks fs g gp t) : Touches fs g gp := by
  obtain ⟨f, hf, hp, hh⟩ := h
  exact ⟨f, hf, t, hp, (hit_ne_miss f gp t).mp (by rw [hh]; exact Hit.noConfusion)⟩

/-- Where `fs` selects a whole group and `gs` selects tests of it by name, these are all the tests
of the group. -/
def NamesAll (fs gs : List Str) (g : Group) (gp : Str) : Prop :=
  (∀ t, ¬ Picks fs g gp t) → (∃ t, Picks gs g gp t) →
    ∀ name ∈ g.testNames, nameGroup name ≠ [] → join (nameGroup name) = gp →
      Picks gs g gp (nameTest name)

/-- What a restricting list selects in one group. -/
def Selects (fs : List Str) (g : Group) (gp t : Str) : Prop :=
  Touches fs g gp ∧ ((∀ t, ¬ Picks fs g gp t) ∨ Picks fs g gp t)

theorem considersName_of_restricts (h : Restricts fs g) {name : Str} (hn : nameGroup name ≠ []) :
    considersName (.new fs g) g.name name = true ↔
      Selects fs g (join (nameGroup name)) (nameTest name) := by
  rw [considersName_iff]
  simp [h, hn, Selects]

/-- In a group that only one of the lists touches, the other one changes nothing. -/
theorem selects_append_of_not_touches {gp : Str} (h : ¬ Touches gs g gp) (t : Str) :
    Selects (fs ++ gs) g gp t ↔ Selects fs g gp t := by
  have hp : ∀ t, ¬ Picks gs g gp t := fun t ht => h ht.touches
  simp only [Selects, touches_append, picks_append, h, hp, or_false]

theorem selects_append_comm {gp t : Str} : Selects (fs ++ gs) g gp t ↔ Selects (gs ++ fs) g gp t := by
  simp only [Selects, touches_append, picks_append, or_comm]

/-- In a group both lists touch, the names of one list take the place of the other's whole group. -/
theorem selects_append_iff {gp t : Str} (hf : Touches fs g gp) (hg : Touches gs g gp) :
    (Selects (fs ++ gs) g gp t ↔ Selects fs g gp t ∨ Selects gs g gp t) ↔
      ((∀ t, ¬ Picks fs g gp t) → (∃ t, Picks gs g gp t) → Picks gs g gp t) ∧
        ((∀ t, ¬ Picks gs g gp t) → (∃ t, Picks fs g gp t) → Picks fs g gp t) := by
  simp only [Selects, touches_append, picks_append, hf, hg, true_and, true_or, not_or,
    forall_and]
  by_cases hnf : ∀ t, ¬ Picks fs g gp t
  · by_cases hng : ∀ t, ¬ Picks gs g gp t
    · simp [hnf, hng]
    · have hex : ∃ t, Picks gs g gp t := by simpa using hng
      simp [hnf, hng, hex]
  · have hex : ∃ t, Picks fs g gp t := by simpa using hnf
    by_cases hng : ∀ t, ¬ Picks gs g gp t
    · simp [hnf, hng, hex]
    · simp [hnf, hng]

/-- **Two lists select the union** of what each selects exactly when, in every group that both
touch, the one that names tests names all of them as soon as the other one selects the group. -/
theorem filters_union_iff {config : Config} {x₁ x₂ x₃ : Sys}
    (h₁ : run { config with filters := fs } g = some x₁)
    (h₂ : run { config with filters := gs } g = some x₂)
    (h₃ : run { config with filters := fs ++ gs } g = some x₃)
    (hf : Restricts fs g) (hg : Restricts gs g) :
    (∀ name ∈ g.testNames, nameGroup name ≠ [] →
      (g.name ++ sep ++ name ∈ x₃.state.statistics.included ↔
        g.name ++ sep ++ name ∈ x₁.state.statistics.included ∨
          g.name ++ sep ++ name ∈ x₂.state.statistics.included)) ↔
    ∀ gp, Touches fs g gp → Touches gs g gp → NamesAll fs gs g gp ∧ NamesAll gs fs g gp := by
  have hinc : ∀ name ∈ g.testNames, nameGroup name ≠ [] →
      ((g.name ++ sep ++ name ∈ x₃.state.statistics.included ↔
        g.name ++ sep ++ name ∈ x₁.state.statistics.included ∨
          g.name ++ sep ++ name ∈ x₂.state.statistics.included) ↔
      (Selects (fs ++ gs) g (join (nameGroup name)) (nameTest name) ↔
        Selects fs g (join (nameGroup name)) (nameTest name) ∨
          Selects gs g (join (nameGroup name)) (nameTest name))) := by
    intro name hn hsub
    rw [mem_included_iff h₁, mem_included_iff h₂, mem_included_iff h₃,
      considersName_of_restricts hf hsub, considersName_of_restricts hg hsub,
      considersName_of_restricts (restricts_append.mpr (Or.inl hf)) hsub]
    simp [hn]
  constructor
  · intro h gp htf htg
    refine ⟨fun hno hex name hn hsub hgp => ?_, fun hno hex name hn hsub hgp => ?_⟩ <;>
      have hiff := (hinc name hn hsub).mp (h name hn hsub) <;> subst hgp
    · exact ((selects_append_iff htf htg).mp hiff).1 hno hex
    · exact ((selects_append_iff htf htg).mp hiff).2 hno hex
  · intro h name hn hsub
    rw [hinc name hn hsub]
    by_cases htf : Touches fs g (join (nameGroup name))
    · by_cases htg : Touches gs g (join (nameGroup name))
      · obtain ⟨hall, hall'⟩ := h _ htf htg
        exact (selects_append_iff htf htg).mpr ⟨fun hno hex => hall hno hex name hn hsub rfl,
          fun hno hex => hall' hno hex name hn hsub rfl⟩
      · rw [selects_append_of_not_touches htg]
        exact ⟨Or.inl, fun h => h.resolve_right fun hs => htg hs.1⟩
    · rw [selects_append_comm, selects_append_of_not_touches htf]
      exact ⟨Or.inr, fun h => h.resolve_left fun hs => htf hs.1⟩

end Union

/-- Lists that name tests of one group. -/
theorem filters_union_twoTests : ∃ x₁ x₂ x₃, run { filters := [['b']] } twoTests = some x₁ ∧
    run { filters := [['c']] } twoTests = some x₂ ∧
    run { filters := [['b']] ++ [['c']] } twoTests = some x₃ ∧
    ((∀ name ∈ twoTests.testNames, nameGroup name ≠ [] →
      (twoTests.name ++ sep ++ name ∈ x₃.state.statistics.included ↔
        twoTests.name ++ sep ++ name ∈ x₁.state.statistics.included ∨
          twoTests.name ++ sep ++ name ∈ x₂.state.statistics.included)) ↔
    ∀ gp, Touches [['b']] twoTests gp → Touches [['c']] twoTests gp →
      NamesAll [['b']] [['c']] twoTests gp ∧ NamesAll [['c']] [['b']] twoTests gp) := by
  obtain ⟨x₁, h₁⟩ := run_isSome { filters := [['b']] } twoTests
  obtain ⟨x₂, h₂⟩ := run_isSome { filters := [['c']] } twoTests
  obtain ⟨x₃, h₃⟩ := run_isSome { filters := [['b']] ++ [['c']] } twoTests
  exact ⟨x₁, x₂, x₃, h₁, h₂, h₃,
    filters_union_iff (show run { ({} : Config) with filters := [['b']] } twoTests = _ from h₁) h₂ h₃
      (by decide) (by decide)⟩

/-- **A filter for one test of a group drops the others**, which a filter for the group selects. -/
theorem named_test_drops_group : ∃ x₁ x₂ x₃,
    run { filters := [['a', ':', ':']] } twoTests = some x₁ ∧
    run { filters := [['b']] } twoTests = some x₂ ∧
    run { filters := [['a', ':', ':']] ++ [['b']] } twoTests = some x₃ ∧
    Restricts [['a', ':', ':']] twoTests ∧ Restricts [['b']] twoTests ∧
    ['a', ':', ':', 'c'] ∈ twoTests.testNames ∧
    twoTests.name ++ sep ++ ['a', ':', ':', 'c'] ∈ x₁.state.statistics.included ∧
    twoTests.name ++ sep ++ ['a', ':', ':', 'c'] ∉ x₃.state.statistics.included := by
  obtain ⟨x₁, h₁⟩ := run_isSome { filters := [['a', ':', ':']] } twoTests
  obtain ⟨x₂, h₂⟩ := run_isSome { filters := [['b']] } twoTests
  obtain ⟨x₃, h₃⟩ := run_isSome { filters := [['a', ':', ':']] ++ [['b']] } twoTests
  refine ⟨x₁, x₂, x₃, h₁, h₂, h₃, by decide, by decide, by decide, ?_, ?_⟩
  · exact (mem_included_iff h₁ _).mpr (by decide)
  · exact fun h => absurd ((mem_included_iff h₃ _).mp h) (by decide)

end E2etest
