import E2etest.Asserts

/-!
# The match-all filter and the exact path

* `match_all_iff`: when a run with the filter `::`, or with the empty filter, includes the tests a
  run without filters includes. A test of the root has no group path for the filter to match.
* `exact_path_selects`: the filter made of the quoted group path and the quoted name of a test
  selects that test alone, and lets through the groups around it.
-/

namespace E2etest

open Async Text Prog

/-! ## The match-all filter -/

theorem hit_matchAll {f : Str} (hf : f = sep ∨ f = []) (groupPath testName : Str) :
    Filter.hit f groupPath testName = .group := by
  rcases hf with rfl | rfl <;> rfl

theorem matchesTest_matchAll {f : Str} (hf : f = sep ∨ f = []) (groupPath testName : Str) :
    matchesTest f groupPath testName = true :=
  matchesTest_of_group (hit_matchAll hf groupPath testName) testName

/-- The group `run` looks the name up under is one that `Filter::new` reads off some name. -/
def Addressed (g : Group) (name : Str) : Prop :=
  nameGroup name ≠ [] ∧ ∃ t, (join (nameGroup name), t) ∈ g.subgroupTests

/-- On a tree whose names hold no `:` these are the names of the tests of subgroups. -/
theorem addressed_iff {g : Group} (hg : g.ColonFree) {n : Node} (hn : n ∈ g.leaves) :
    Addressed g n.nameBelow ↔ n.InSubgroup := by
  have hparts := (Group.nameParts hg hn).1
  unfold Addressed
  rw [hparts]
  refine ⟨fun h => h.1, fun h => ⟨h, n.name, ?_⟩⟩
  exact (Group.mem_subgroupTests hg).mpr ⟨n, hn, h, rfl⟩

section MatchAll

variable {config : Config} {g : Group} {f : Str} {x x₀ : Sys}

theorem restricts_matchAll (hf : f = sep ∨ f = []) : Restricts [f] g ↔ g.subgroupTests ≠ [] := by
  constructor
  · rintro ⟨-, -, p, hp, -⟩
    exact List.ne_nil_of_mem hp
  · intro hne
    obtain ⟨p, hp⟩ := List.exists_mem_of_ne_nil _ hne
    exact ⟨f, List.mem_singleton_self f, p, hp, matchesTest_matchAll hf p.1 p.2⟩

theorem touches_matchAll (hf : f = sep ∨ f = []) (gp : Str) :
    Touches [f] g gp ↔ ∃ t, (gp, t) ∈ g.subgroupTests := by
  constructor
  · rintro ⟨-, -, t, ht, -⟩
    exact ⟨t, ht⟩
  · rintro ⟨t, ht⟩
    exact ⟨f, List.mem_singleton_self f, t, ht, matchesTest_matchAll hf gp t⟩

theorem not_picks_matchAll (hf : f = sep ∨ f = []) (gp t : Str) : ¬ Picks [f] g gp t := by
  rintro ⟨f', hf', -, hhit⟩
  obtain rfl := List.mem_singleton.mp hf'
  rw [hit_matchAll hf] at hhit
  cases hhit

theorem considersName_matchAll (hf : f = sep ∨ f = []) (name : Str) :
    considersName (.new [f] g) g.name name = true ↔ g.subgroupTests = [] ∨ Addressed g name := by
  have hno : ∀ t, ¬ Picks [f] g (join (nameGroup name)) t := not_picks_matchAll hf _
  rw [considersName_iff, restricts_matchAll hf, touches_matchAll hf, ne_eq, not_not, Addressed]
  refine or_congr_right (and_congr_right fun _ => ?_)
  simp [hno]

theorem considersName_noFilters (name : Str) : considersName (.new [] g) g.name name = true :=
  (considersName_iff [] g name).mpr (Or.inl fun ⟨_, hf, _⟩ => List.not_mem_nil hf)

theorem selectTests_foldl_defined (filter : Filter) (groupName : Str) :
    ∀ (names : List Str) (s : Statistics) (empty : Bool) {r : Statistics × Bool},
      names.foldlM (selectTest filter groupName) (s, empty) = some r →
      ∀ p, p ∈ r.1.defined ↔ p ∈ s.defined ∨ ∃ name ∈ names, p = groupName ++ sep ++ name
  | [], s, empty, r, h, p => by
    obtain rfl := Option.some.inj h
    simp
  | name :: names, s, empty, r, h, p => by
    rw [List.foldlM_cons, selectTest_eq, Option.bind_eq_bind, Option.bind_some] at h
    rw [selectTests_foldl_defined filter groupName names _ _ h p, List.exists_mem_cons_iff,
      Finset.mem_insert]
    tauto

/-- **What is defined**: every name of a test. -/
theorem mem_defined_iff (hx : run config g = some x) (p : Str) :
    p ∈ x.state.statistics.defined ↔ ∃ name ∈ g.testNames, p = g.name ++ sep ++ name := by
  obtain ⟨r, hr, rfl⟩ := Option.map_eq_some_iff.mp hx
  have := selectTests_foldl_defined _ _ _ _ _ hr p
  simpa [Statistics.new, State.init] using this

/-- Without filters, all that is defined is included. -/
theorem included_eq_defined (h₀ : run { config with filters := [] } g = some x₀) :
    x₀.state.statistics.included = x₀.state.statistics.defined := by
  refine Finset.ext fun p => ?_
  rw [(run_spec h₀).2.2.1, mem_defined_iff h₀]
  refine exists_congr fun name => and_congr_right fun _ => ?_
  rw [and_iff_right (considersName_noFilters name)]

/-- The run of `x` includes exactly the tests that the run of `x₀` includes, and these are all the
defined ones. -/
def IncludesAll (x x₀ : Sys) : Prop :=
  x.state.statistics.included = x₀.state.statistics.included ∧
    x₀.state.statistics.included = x₀.state.statistics.defined

/-- **The match-all filter equals no filter** exactly when no test is in a subgroup, or all tests
are. -/
theorem match_all_iff (hf : f = sep ∨ f = [])
    (hx : run { config with filters := [f] } g = some x)
    (h₀ : run { config with filters := [] } g = some x₀) :
    IncludesAll x x₀ ↔ g.subgroupTests = [] ∨ ∀ name ∈ g.testNames, Addressed g name := by
  unfold IncludesAll
  rw [and_iff_left (included_eq_defined h₀), Finset.ext_iff]
  have hinc : ∀ name ∈ g.testNames, (g.name ++ sep ++ name ∈ x.state.statistics.included ↔
      g.subgroupTests = [] ∨ Addressed g name) := fun name hname => by
    rw [mem_included_iff hx, and_iff_right hname]
    exact considersName_matchAll hf name
  have hinc₀ : ∀ name ∈ g.testNames, g.name ++ sep ++ name ∈ x₀.state.statistics.included :=
    fun name hname => (mem_included_iff h₀ name).mpr ⟨hname, considersName_noFilters name⟩
  constructor
  · intro h
    by_cases hnil : g.subgroupTests = []
    · exact Or.inl hnil
    · refine Or.inr fun name hname => ?_
      exact ((hinc name hname).mp ((h _).mpr (hinc₀ name hname))).resolve_left hnil
  · intro h p
    constructor
    · intro hp
      obtain ⟨name, hname, -, rfl⟩ := ((run_spec hx).2.2.1 p).mp hp
      exact hinc₀ name hname
    · intro hp
      obtain ⟨name, hname, -, rfl⟩ := ((run_spec h₀).2.2.1 p).mp hp
      exact (hinc name hname).mpr (h.imp_right fun h => h name hname)

end MatchAll

/-- On a tree without root tests, the filter `::`. -/
theorem match_all_twoTests : ∃ x x₀, run { filters := [sep] } twoTests = some x ∧
    run {} twoTests = some x₀ ∧ (IncludesAll x x₀ ↔ twoTests.subgroupTests = [] ∨
      ∀ name ∈ twoTests.testNames, Addressed twoTests name) := by
  obtain ⟨x, hx⟩ := run_isSome { filters := [sep] } twoTests
  obtain ⟨x₀, h₀⟩ := run_isSome {} twoTests
  exact ⟨x, x₀, hx, h₀, match_all_iff (Or.inl rfl)
    (show run { ({} : Config) with filters := [sep] } twoTests = _ from hx) h₀⟩

/-- A root group `r` with a test `x` and a subgroup `a`, which has a test `b`. -/
def rootTest : Group :=
  .mk ['r'] { typeId := 0 } [{ name := ['x'], fixture := { typeId := 1 } }]
    [.mk ['a'] { typeId := 2 } [{ name := ['b'], fixture := { typeId := 3 } }] []]

/-- **The match-all filter drops a test of the root** as soon as some subgroup has a test. -/
theorem match_all_drops_root : ∃ x x₀, run { filters := [sep] } rootTest = some x ∧
    run {} rootTest = some x₀ ∧ ¬ IncludesAll x x₀ := by
  obtain ⟨x, hx⟩ := run_isSome { filters := [sep] } rootTest
  obtain ⟨x₀, h₀⟩ := run_isSome {} rootTest
  refine ⟨x, x₀, hx, h₀, fun h => ?_⟩
  have hinc := (mem_included_iff h₀ ['x']).mpr ⟨by decide, by decide⟩
  rw [← h.1, mem_included_iff hx] at hinc
  exact absurd hinc.2 (by decide)

/-! ## The exact path -/

/-- The string in quotation marks. -/
def quoted (s : Str) : Str := '"' :: (s ++ ['"'])

theorem new_quoted (s : Str) : FilterMatcher.new (quoted s) = .exact s := by
  simp [FilterMatcher.new, quoted, FilterMatcher.unquote]

theorem colonFree_quoted {s : Str} (h : Text.ColonFree s) : Text.ColonFree (quoted s) := by
  simp only [Text.ColonFree, quoted, List.mem_cons, List.mem_append] at h ⊢
  simp [h]

/-- The filter for one test: `"g"::"t"`. -/
def exactPath (n : Node) : Str := quoted n.groupPath ++ sep ++ quoted n.name

section Exact

variable {config : Config} {g : Group} {x : Sys} {n : Node}

theorem rsplitOnce_exactPath (h : Text.ColonFree n.name) :
    rsplitOnce (exactPath n) = some (quoted n.groupPath, quoted n.name) :=
  rsplitOnce_concat (colonFree_quoted h) _

theorem hit_exactPath (h : Text.ColonFree n.name) (gp t : Str) :
    Filter.hit (exactPath n) gp t = if gp = n.groupPath ∧ t = n.name then .test else .miss := by
  simp only [Filter.hit, rsplitOnce_exactPath h, new_quoted, FilterMatcher.isMatch]
  by_cases hg : gp = n.groupPath <;> by_cases ht : t = n.name <;> simp [hg, ht]

theorem matchesTest_exactPath (h : Text.ColonFree n.name) (gp t : Str) :
    matchesTest (exactPath n) gp t = true ↔ gp = n.groupPath ∧ t = n.name := by
  rw [← hit_ne_miss, hit_exactPath h]
  split <;> simp_all

/-- Tests of subgroups with one group path and one name are one test. -/
theorem leaf_eq (hg : g.ColonFree) (hd : g.DistinctPaths) {k : Node} (hk : k ∈ g.leaves)
    (hn : n ∈ g.leaves) (hks : k.InSubgroup) (hns : n.InSubgroup) (hgp : k.groupPath = n.groupPath)
    (hname : k.name = n.name) : k = n := by
  have hpar := Group.parents_eq_of_groupPath hg hk hn hks hns hgp
  refine List.inj_on_of_nodup_map hd (Group.mem_leaves.mp hk).1 (Group.mem_leaves.mp hn).1 ?_
  unfold Node.path Node.names
  rw [hpar, hname]

variable (hg : g.ColonFree) (hd : g.DistinctPaths) (hn : n ∈ g.leaves) (hs : n.InSubgroup)

include hg hn hs

theorem restricts_exactPath : Restricts [exactPath n] g := by
  refine ⟨_, List.mem_singleton_self _, (n.groupPath, n.name), ?_, ?_⟩
  · exact (Group.mem_subgroupTests hg).mpr ⟨n, hn, hs, rfl⟩
  · exact (matchesTest_exactPath (hg.name hn) _ _).mpr ⟨rfl, rfl⟩

include hd

theorem considerTest_exactPath {k : Node} (hk : k ∈ g.leaves) :
    (Filter.new [exactPath n] g).considerTest k.parents k.name = true ↔ k = n := by
  have hname := hg.name hn
  have hpick : Picks [exactPath n] g n.groupPath n.name :=
    ⟨_, List.mem_singleton_self _, (Group.mem_subgroupTests hg).mpr ⟨n, hn, hs, rfl⟩, by
      rw [hit_exactPath hname, if_pos ⟨rfl, rfl⟩]⟩
  rw [considerTest_iff hg hk, or_iff_right (not_not.mpr (restricts_exactPath hg hn hs))]
  constructor
  · rintro ⟨hks, ⟨f, hf, t, -, hm⟩, hsel⟩
    obtain rfl := List.mem_singleton.mp hf
    obtain ⟨hgp, -⟩ := (matchesTest_exactPath hname _ _).mp hm
    obtain hno | ⟨f', hf', -, hhit⟩ := hsel
    · exact absurd (hgp ▸ hpick) (hno n.name)
    · obtain rfl := List.mem_singleton.mp hf'
      have hmatch := (matchesTest_exactPath hname _ _).mp
        ((hit_ne_miss _ _ _).mp (by rw [hhit]; exact Hit.noConfusion))
      exact leaf_eq hg hd hk hn hks hs hgp hmatch.2
  · rintro rfl
    exact ⟨hs, hpick.touches, Or.inr hpick⟩

/-- The groups the filter lets through are those around the test. -/
theorem considerGroup_exactPath {m : Node} (hm : m ∈ g.nodes [] []) (hroot : m.id ≠ .group []) :
    (Filter.new [exactPath n] g).considerGroup m.parents m.name = true ↔ m.id.Encloses n.id := by
  have hmem := (Group.mem_leaves.mp hn).1
  rw [considerGroup_iff hg hm (Group.parents_ne_nil hm hroot),
    or_iff_right (not_not.mpr (restricts_exactPath hg hn hs))]
  constructor
  · rintro ⟨f, hf, k, hk, hks, hmatch, hpre⟩
    obtain rfl := List.mem_singleton.mp hf
    obtain ⟨hgp, hname⟩ := (matchesTest_exactPath (hg.name hn) _ _).mp hmatch
    obtain rfl := leaf_eq hg hd hk hn hks hs hgp hname
    obtain ⟨m', hm', hnames, henc⟩ := Group.exists_enclosing [] [] g k hmem m.names
      (Group.nodes_spec [] [] g m hm).2.1 hpre
    have heq : m' = m := List.inj_on_of_nodup_map hd hm' hm (by rw [Node.path, Node.path, hnames])
    rwa [← heq]
  · intro henc
    exact ⟨_, List.mem_singleton_self _, n, hn, hs,
      (matchesTest_exactPath (hg.name hn) _ _).mpr ⟨rfl, rfl⟩,
      Group.encloses_names [] [] g m hm n hmem henc⟩

omit hg hn hs hd in
/-- The run of `x` is about the test `n` alone: it is the one test included, the filter lets through
it and the groups around it, and nothing else does anything at any point of the run. -/
def SelectsOnly (filter : Filter) (g : Group) (n : Node) (x : Sys) : Prop :=
  x.state.statistics.included = {n.path} ∧
  (∀ k ∈ g.leaves, filter.considerTest k.parents k.name = true ↔ k = n) ∧
  (∀ m ∈ g.nodes [] [], m.id ≠ .group [] → m.id.isTest = false →
    (filter.considerGroup m.parents m.name = true ↔ m.id.Encloses n.id)) ∧
  ∀ {G t y}, Sys.Run G x t y → ∀ c ∈ calls t, c.1.node = n.id ∨ c.1.node.Encloses n.id

theorem nodes_exactPath {w : List OpCall}
    (hw : RunWord { config with filters := [exactPath n] } g w) :
    ∀ c ∈ w, c.1.node = n.id ∨ c.1.node.Encloses n.id := by
  intro c hc
  obtain ⟨m, hm, hid⟩ := hw.nodes c hc
  have hne : proj m.id w ≠ [] := List.ne_nil_of_mem (mem_proj.mpr ⟨hc, hid.symm⟩)
  obtain rfl | hw := hw
  · exact absurd rfl hne
  rw [← hid]
  cases ht : m.id.isTest with
  | true =>
    have hct := considers_of_proj hw hm hne (ne_group_of_isTest ht)
    rw [Filter.considers_test _ ht] at hct
    exact Or.inl (congrArg _ ((considerTest_exactPath hg hd hn hs
      (Group.mem_leaves.mpr ⟨hm, ht⟩)).mp hct))
  | false =>
    refine Or.inr ?_
    obtain rfl | ⟨hroot, -⟩ := Group.eq_or_encloses hm
    · obtain rfl | ⟨-, hbelow⟩ := Group.eq_or_encloses (Group.mem_leaves.mp hn).1
      · exact absurd (Group.mem_leaves.mp hn).2 Bool.false_ne_true
      · exact hbelow
    · have hcg := considers_of_proj hw hm hne hroot
      rw [Filter.considers_group _ ht] at hcg
      exact (considerGroup_exactPath hg hd hn hs hm hroot).mp hcg

/-- **The exact path of a test selects it alone.** -/
theorem exact_path_selects (hx : run { config with filters := [exactPath n] } g = some x) :
    SelectsOnly (.new [exactPath n] g) g n x := by
  refine ⟨Finset.ext fun p => ?_, fun k hk => considerTest_exactPath hg hd hn hs hk,
    fun m hm hroot _ => considerGroup_exactPath hg hd hn hs hm hroot, fun h c hc => ?_⟩
  · rw [mem_included hg hx, Finset.mem_singleton]
    constructor
    · rintro ⟨k, hk, hc, rfl⟩
      rw [(considerTest_exactPath hg hd hn hs hk).mp hc]
    · rintro rfl
      exact ⟨n, hn, (considerTest_exactPath hg hd hn hs hn).mpr rfl, rfl⟩
  · obtain ⟨w, hw, hpre⟩ := run_prefix hx h
    exact nodes_exactPath hg hd hn hs hw c (hpre.subset hc)

end Exact

/-- A root group `r` with a subgroup `a`, which has a test `b` and a subgroup `a` with a test
`bb`. -/
def deepTests : Group :=
  .mk ['r'] { typeId := 0 } [] [.mk ['a'] { typeId := 1 }
    [{ name := ['b'], fixture := { typeId := 2 } }]
    [.mk ['a'] { typeId := 3 } [{ name := ['b', 'b'], fixture := { typeId := 4 } }] []]]

/-- The exact path of the test of the inner group, whose path holds a `::`. -/
theorem exact_path_selects_deepTests :
    let n : Node := ⟨.test [0, 0] 0, [['r'], ['a'], ['a']], ['b', 'b'], { typeId := 4 }⟩
    exactPath n = "\"a::a\"::\"bb\"".toList ∧
      ∃ x, run { filters := [exactPath n] } deepTests = some x ∧
        SelectsOnly (.new [exactPath n] deepTests) deepTests n x := by
  intro n
  obtain ⟨x, hx⟩ := run_isSome { filters := [exactPath n] } deepTests
  refine ⟨by decide, x, hx, ?_⟩
  exact exact_path_selects (by decide) (by decide) (by decide) (by decide)
    (show run { ({} : Config) with filters := [exactPath n] } deepTests = _ from hx)

end E2etest
