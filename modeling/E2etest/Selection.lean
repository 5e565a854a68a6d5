import E2etest.FilterSpec

/-!
# The tests a filter list selects

The loop of `run` knows a test by its name below the root, and splits it (`nameGroup`, `nameTest`);
`considersName` is what it asks the filter. `considersName_iff` gives the answer of the filter built
from a list of filter strings, in terms of what the strings match, for every tree.

On a tree whose names hold no `:` (`Group.ColonFree`) the same is said of the nodes:

* `considerTest_iff`, `considerGroup_iff`: which tests and groups are let through.
* `considerGroup_of_considerTest`: the groups on the way to a test that is let through are let
  through; `exists_considerTest_below`: below a group a restricting filter lets through there is a
  test it lets through.
-/

namespace E2etest

open Text

/-- The filter string `f` matches the test `testName` of the group with the path `groupPath` below
the root: a string with a `::` is split at its last one and its parts are held against the path and
the name; a string without is held against either. -/
def matchesTest (f groupPath testName : Str) : Bool :=
  match rsplitOnce f with
  | some (groupPart, testPart) =>
    (FilterMatcher.new groupPart).isMatch groupPath && (FilterMatcher.new testPart).isMatch testName
  | none => (FilterMatcher.new f).isMatch groupPath || (FilterMatcher.new f).isMatch testName

theorem hit_ne_miss (f groupPath testName : Str) :
    Filter.hit f groupPath testName ≠ .miss ↔ matchesTest f groupPath testName = true := by
  unfold Filter.hit matchesTest
  cases rsplitOnce f with
  | none =>
    by_cases hg : (FilterMatcher.new f).isMatch groupPath = true
    · simp [hg]
    · by_cases hm : (FilterMatcher.new f).isMatch testName = true <;> simp [hg, hm]
  | some p =>
    by_cases hg : (FilterMatcher.new p.1).isMatch groupPath = true
    · by_cases ht : FilterMatcher.new p.2 = .any
      · simp [ht]
      · by_cases hm : (FilterMatcher.new p.2).isMatch testName = true <;> simp [hg, ht, hm]
    · simp [hg]

/-- The tests of subgroups, as `Filter::new` reads them off the names. -/
def Group.subgroupTests (g : Group) : List (Str × Str) := g.testNames.filterMap rsplitOnce

/-- Some string matches some test of a subgroup. -/
def Restricts (fs : List Str) (g : Group) : Prop :=
  ∃ f ∈ fs, ∃ p ∈ g.subgroupTests, matchesTest f p.1 p.2 = true

instance (fs : List Str) (g : Group) : Decidable (Restricts fs g) :=
  inferInstanceAs (Decidable (∃ f ∈ fs, ∃ p ∈ g.subgroupTests, matchesTest f p.1 p.2 = true))

/-- Some string matches some test in the group with the path `gp` below the root. -/
def Touches (fs : List Str) (g : Group) (gp : Str) : Prop :=
  ∃ f ∈ fs, ∃ t, (gp, t) ∈ g.subgroupTests ∧ matchesTest f gp t = true

/-- Some string selects the test named `t` in the group with the path `gp`, by its name. -/
def Picks (fs : List Str) (g : Group) (gp t : Str) : Prop :=
  ∃ f ∈ fs, (gp, t) ∈ g.subgroupTests ∧ Filter.hit f gp t = .test

/-- The group of a test, as `run` reads it off the name. -/
def nameGroup (name : Str) : List Str := (split name).dropLast

/-- The test's own name, as `run` reads it off the name. -/
def nameTest (name : Str) : Str := (split name).getLast?.getD []

/-- `run` lets through the test with this name below the root. -/
def considersName (filter : Filter) (groupName name : Str) : Bool :=
  filter.considerTest (groupName :: nameGroup name) (nameTest name)

section Names

variable (fs : List Str) (g : Group)

theorem mem_visits {v : Filter.Visit} :
    v ∈ fs.flatMap (Filter.visitsOf g.subgroupTests) ↔
      ∃ f ∈ fs, ∃ p ∈ g.subgroupTests, v = (Filter.hit f p.1 p.2, p) := by
  simp only [List.mem_flatMap, Filter.visitsOf, List.mem_map, eq_comm]

theorem mem_tests_iff (gp : Str) :
    g.name ++ sep ++ gp ∈ (Filter.new fs g).tests ↔ Touches fs g gp := by
  rw [(Filter.new_represents fs g).keys]
  constructor
  · rintro ⟨v, hv, hm, hk⟩
    obtain ⟨f, hf, ⟨gp', t⟩, hp, rfl⟩ := (mem_visits fs g).mp hv
    obtain rfl := Filter.key_inj hk
    exact ⟨f, hf, t, hp, (hit_ne_miss f _ t).mp hm⟩
  · rintro ⟨f, hf, t, hp, hm⟩
    exact ⟨_, (mem_visits fs g).mpr ⟨f, hf, _, hp, rfl⟩, (hit_ne_miss f gp t).mpr hm, rfl⟩

theorem mem_names_iff {gp : Str} {S : Finset Str}
    (hl : (Filter.new fs g).tests.lookup (g.name ++ sep ++ gp) = some S) (t : Str) :
    t ∈ S ↔ Picks fs g gp t := by
  rw [(Filter.new_represents fs g).names gp S hl t, ← Group.subgroupTests, mem_visits]
  refine exists_congr fun f => and_congr_right fun _ => ⟨?_, ?_⟩
  · rintro ⟨p, hp, he⟩
    obtain ⟨hh, rfl⟩ := Prod.mk.inj he
    exact ⟨hp, hh.symm⟩
  · rintro ⟨hp, hh⟩
    exact ⟨_, hp, by rw [hh]⟩

/-- **The map is empty** exactly when no string matches a test of a subgroup. -/
theorem restricted_iff : (Filter.new fs g).tests.keys ≠ [] ↔ Restricts fs g := by
  constructor
  · intro hk
    obtain ⟨k, hk⟩ := List.exists_mem_of_ne_nil _ hk
    obtain ⟨v, hv, hm, rfl⟩ := ((Filter.new_represents fs g).keys k).mp hk
    obtain ⟨f, hf, p, hp, rfl⟩ := (mem_visits fs g).mp hv
    exact ⟨f, hf, p, hp, (hit_ne_miss f _ _).mp hm⟩
  · rintro ⟨f, hf, p, hp, hm⟩ hk
    have hmem := (mem_tests_iff fs g p.1).mpr ⟨f, hf, p.2, hp, hm⟩
    rw [AList.mem_keys, hk] at hmem
    exact List.not_mem_nil hmem

/-- **The set of groups is empty** exactly when the map is. -/
theorem groups_empty_iff : (Filter.new fs g).groups ≠ ∅ ↔ Restricts fs g := by
  constructor
  · intro hne
    obtain ⟨s, hs⟩ := Finset.nonempty_iff_ne_empty.mpr hne
    obtain ⟨v, hv, hm, -⟩ := ((Filter.new_represents fs g).groups s).mp hs
    obtain ⟨f, hf, p, hp, rfl⟩ := (mem_visits fs g).mp hv
    exact ⟨f, hf, p, hp, (hit_ne_miss f _ _).mp hm⟩
  · rintro ⟨f, hf, p, hp, hm⟩
    refine Finset.ne_empty_of_mem (a := join (g.name :: split p.1)) ?_
    exact ((Filter.new_represents fs g).groups _).mpr
      ⟨_, (mem_visits fs g).mpr ⟨f, hf, p, hp, rfl⟩, (hit_ne_miss f _ _).mpr hm,
        split p.1, split_ne_nil _, List.prefix_rfl, rfl⟩

/-- The root group has no key. -/
theorem root_not_mem : g.name ∉ (Filter.new fs g).tests := by
  intro hk
  obtain ⟨v, -, -, hk⟩ := ((Filter.new_represents fs g).keys _).mp hk
  have := congrArg List.length hk
  simp [sep] at this

/-- **Which tests `run` lets through.** -/
theorem considersName_iff (name : Str) :
    considersName (Filter.new fs g) g.name name = true ↔ ¬ Restricts fs g ∨
      (nameGroup name ≠ [] ∧ Touches fs g (join (nameGroup name)) ∧
        ((∀ t, ¬ Picks fs g (join (nameGroup name)) t) ∨
          Picks fs g (join (nameGroup name)) (nameTest name))) := by
  unfold considersName Filter.considerTest
  by_cases hr : Restricts fs g
  · rw [if_neg ((restricted_iff fs g).mpr hr)]
    simp only [hr, not_true_eq_false, false_or]
    by_cases hs : nameGroup name = []
    · have hl : (Filter.new fs g).tests.lookup (join [g.name]) = none :=
        AList.lookup_eq_none.mpr (root_not_mem fs g)
      rw [hs, hl]
      simp
    · rw [join_cons g.name hs]
      have hmem := mem_tests_iff fs g (join (nameGroup name))
      rw [← AList.lookup_isSome] at hmem
      cases hl : (Filter.new fs g).tests.lookup (g.name ++ sep ++ join (nameGroup name)) with
      | none =>
        rw [hl] at hmem
        simp only [Bool.false_eq_true, false_iff, not_and]
        exact fun _ ht => absurd (hmem.mpr ht) Bool.false_ne_true
      | some S =>
        have hS := mem_names_iff fs g hl
        have htouch := hmem.mp (by rw [hl]; rfl)
        simp only [hs, htouch, ne_eq, not_false_eq_true, true_and, Bool.or_eq_true,
          decide_eq_true_eq, hS, Finset.eq_empty_iff_forall_notMem]
  · rw [if_pos (not_not.mp fun hk => hr ((restricted_iff fs g).mp hk))]
    simp [hr]

end Names

/-! ## Trees whose names hold no `:` -/

/-- The test is in a group below the root. -/
def Node.InSubgroup (n : Node) : Prop := n.parents.tail ≠ []

instance (n : Node) : Decidable n.InSubgroup := inferInstanceAs (Decidable (_ ≠ _))

/-- The name of a test below the root. -/
def Node.nameBelow (n : Node) : Str := join (n.parents.tail ++ [n.name])

namespace Group

variable {g : Group}

theorem mem_leaves {n : Node} : n ∈ g.leaves ↔ n ∈ g.nodes [] [] ∧ n.id.isTest = true := by
  simp [leaves]

/-- Every test has the root among the groups around it. -/
theorem leaf_parents {n : Node} (hn : n ∈ g.leaves) : n.parents = g.name :: n.parents.tail := by
  obtain ⟨hm, ht⟩ := mem_leaves.mp hn
  obtain ⟨rest, hrest⟩ := (nodes_spec [] [] g n hm).2.2 ht
  rw [← hrest]
  rfl

theorem node_names {n : Node} (hn : n ∈ g.nodes [] []) : n.names = g.name :: n.names.tail := by
  obtain ⟨rest, hrest⟩ := (nodes_spec [] [] g n hn).2.1
  rw [← hrest]
  rfl

theorem testNames_eq_leaves (g : Group) : g.testNames = g.leaves.map Node.nameBelow := by
  rw [testNames_eq [] [] g]
  refine List.map_congr_left fun n hn => ?_
  unfold nameFrom Node.names
  rw [leaf_parents hn]
  rfl

theorem leaf_path {n : Node} (hn : n ∈ g.leaves) : g.name ++ sep ++ n.nameBelow = n.path := by
  rw [Node.nameBelow, Node.path, Node.names, ← join_cons g.name (by simp), ← List.cons_append,
    ← leaf_parents hn]

theorem ColonFree.parents (h : g.ColonFree) {n : Node} (hn : n ∈ g.leaves) :
    ∀ s ∈ n.parents, Text.ColonFree s := fun s hs =>
  h n (mem_leaves.mp hn).1 s (by simp [Node.names, hs])

theorem ColonFree.name (h : g.ColonFree) {n : Node} (hn : n ∈ g.leaves) : Text.ColonFree n.name :=
  h n (mem_leaves.mp hn).1 n.name (by simp [Node.names])

section ColonFree

variable (h : g.ColonFree) {n : Node} (hn : n ∈ g.leaves)

include h hn

theorem split_nameBelow : split n.nameBelow = n.parents.tail ++ [n.name] := by
  refine split_join (by simp) fun s hs => ?_
  rcases List.mem_append.mp hs with hs | hs
  · exact h.parents hn s (List.mem_of_mem_tail hs)
  · rw [List.mem_singleton.mp hs]
    exact h.name hn

/-- **The parts `run` reads off the name of a test** are its groups and its own name. -/
theorem nameParts : nameGroup n.nameBelow = n.parents.tail ∧ nameTest n.nameBelow = n.name := by
  unfold nameGroup nameTest
  rw [split_nameBelow h hn]
  simp

theorem considersName_leaf (filter : Filter) :
    considersName filter g.name n.nameBelow = filter.considerTest n.parents n.name := by
  obtain ⟨hg, ht⟩ := nameParts h hn
  unfold considersName
  rw [hg, ht, ← leaf_parents hn]

theorem split_groupPath (hs : n.InSubgroup) : split n.groupPath = n.parents.tail :=
  split_join hs fun s hs => h.parents hn s (List.mem_of_mem_tail hs)

omit hn in
/-- The pairs the loop of `Filter::new` visits are the tests of subgroups. -/
theorem mem_subgroupTests {p : Str × Str} : p ∈ g.subgroupTests ↔
    ∃ n ∈ g.leaves, n.InSubgroup ∧ p = (n.groupPath, n.name) := by
  simp only [subgroupTests, testNames_eq_leaves, List.mem_filterMap, List.mem_map,
    exists_exists_and_eq_and]
  refine exists_congr fun n => and_congr_right fun hn => ?_
  by_cases hs : n.parents.tail = []
  · unfold Node.nameBelow
    rw [hs, List.nil_append, join_singleton, rsplitOnce_of_colonFree (h.name hn)]
    simp [Node.InSubgroup, hs]
  · unfold Node.nameBelow
    rw [join_concat hs, rsplitOnce_concat (h.name hn)]
    simp only [Option.some.injEq]
    exact ⟨fun he => ⟨hs, he.symm⟩, fun he => he.2.symm⟩

/-- Tests of subgroups with one group path have the same groups around them. -/
theorem parents_eq_of_groupPath {m : Node} (hm : m ∈ g.leaves) (hns : n.InSubgroup)
    (hms : m.InSubgroup) (he : n.groupPath = m.groupPath) : n.parents = m.parents := by
  rw [leaf_parents hn, leaf_parents hm, ← split_groupPath h hn hns, ← split_groupPath h hm hms, he]

/-- **A pair with the group path of a test** is that of a test in groups of the same names. -/
theorem exists_leaf_of_pair (hs : n.InSubgroup) {t : Str} (hp : (n.groupPath, t) ∈ g.subgroupTests) :
    ∃ k ∈ g.leaves, k.InSubgroup ∧ k.parents = n.parents ∧ n.groupPath = k.groupPath ∧ k.name = t := by
  obtain ⟨k, hk, hks, he⟩ := (mem_subgroupTests h).mp hp
  obtain ⟨hgp, rfl⟩ := Prod.mk.inj he
  exact ⟨k, hk, hks, (parents_eq_of_groupPath h hn hk hs hks hgp).symm, hgp, rfl⟩

end ColonFree

end Group

section Answers

variable {fs : List Str} {g : Group} (h : g.ColonFree)

include h

/-- **Which tests are let through.** -/
theorem considerTest_iff {n : Node} (hn : n ∈ g.leaves) :
    (Filter.new fs g).considerTest n.parents n.name = true ↔ ¬ Restricts fs g ∨
      (n.InSubgroup ∧ Touches fs g n.groupPath ∧
        ((∀ t, ¬ Picks fs g n.groupPath t) ∨ Picks fs g n.groupPath n.name)) := by
  obtain ⟨hg, ht⟩ := Group.nameParts h hn
  rw [← Group.considersName_leaf h hn, considersName_iff, hg, ht]
  rfl

/-- **Which groups are in the set.** -/
theorem mem_groups_iff {m : Node} (hm : m ∈ g.nodes [] []) (hroot : m.parents ≠ []) :
    m.path ∈ (Filter.new fs g).groups ↔
      ∃ f ∈ fs, ∃ n ∈ g.leaves, n.InSubgroup ∧ matchesTest f n.groupPath n.name = true ∧
        m.names <+: n.parents := by
  have hnames := Group.node_names hm
  have htail : m.names.tail ≠ [] := by
    obtain ⟨p, ps, hp⟩ := List.exists_cons_of_ne_nil hroot
    simp [Node.names, hp]
  unfold Node.path
  rw [(Filter.new_represents fs g).groups]
  constructor
  · rintro ⟨v, hv, hmiss, ns, hne, hpre, hj⟩
    obtain ⟨f, hf, p, hp, rfl⟩ := (mem_visits fs g).mp hv
    obtain ⟨n, hn, hs, rfl⟩ := (Group.mem_subgroupTests h).mp hp
    refine ⟨f, hf, n, hn, hs, (hit_ne_miss f _ _).mp hmiss, ?_⟩
    rw [Group.split_groupPath h hn hs] at hpre
    have hcol : ∀ s ∈ g.name :: ns, Text.ColonFree s := by
      intro s hs'
      refine h.parents hn s ?_
      rw [Group.leaf_parents hn]
      rcases List.mem_cons.mp hs' with rfl | hs'
      · exact List.mem_cons_self
      · exact List.mem_cons_of_mem _ (hpre.subset hs')
    rw [join_injective (by rw [hnames]; simp) (by simp) (h m hm) hcol hj,
      Group.leaf_parents hn]
    exact (List.prefix_cons_inj _).mpr hpre
  · rintro ⟨f, hf, n, hn, hs, hmatch, hpre⟩
    refine ⟨_, (mem_visits fs g).mpr
      ⟨f, hf, _, (Group.mem_subgroupTests h).mpr ⟨n, hn, hs, rfl⟩, rfl⟩,
      (hit_ne_miss f _ _).mpr hmatch, m.names.tail, htail, ?_, by rw [← hnames]⟩
    rw [Group.split_groupPath h hn hs]
    rw [hnames, Group.leaf_parents hn] at hpre
    exact (List.prefix_cons_inj _).mp hpre

/-- **Which groups are let through.** -/
theorem considerGroup_iff {m : Node} (hm : m ∈ g.nodes [] []) (hroot : m.parents ≠ []) :
    (Filter.new fs g).considerGroup m.parents m.name = true ↔ ¬ Restricts fs g ∨
      ∃ f ∈ fs, ∃ n ∈ g.leaves, n.InSubgroup ∧ matchesTest f n.groupPath n.name = true ∧
        m.names <+: n.parents := by
  unfold Filter.considerGroup
  rw [Bool.or_eq_true, decide_eq_true_eq, decide_eq_true_eq]
  refine or_congr ?_ (mem_groups_iff h hm hroot)
  rw [← not_iff_not, not_not]
  exact groups_empty_iff fs g

/-- **The groups on the way to a test that is let through are let through.** -/
theorem considerGroup_of_considerTest {n m : Node} (hn : n ∈ g.leaves) (hm : m ∈ g.nodes [] [])
    (hroot : m.parents ≠ []) (hpre : m.names <+: n.parents)
    (hc : (Filter.new fs g).considerTest n.parents n.name = true) :
    (Filter.new fs g).considerGroup m.parents m.name = true := by
  rw [considerGroup_iff h hm hroot]
  refine ((considerTest_iff h hn).mp hc).imp id ?_
  rintro ⟨hs, ⟨f, hf, t, hp, hmatch⟩, -⟩
  obtain ⟨k, hk, hks, hpar, hgp, rfl⟩ := Group.exists_leaf_of_pair h hn hs hp
  refine ⟨f, hf, k, hk, hks, hgp ▸ hmatch, ?_⟩
  rwa [hpar]

/-- **In a group that the strings touch** there is a test that is let through. -/
theorem exists_considerTest_of_touches {n : Node} (hn : n ∈ g.leaves) (hs : n.InSubgroup)
    (ht : Touches fs g n.groupPath) : ∃ k ∈ g.leaves, k.parents = n.parents ∧
      (Filter.new fs g).considerTest k.parents k.name = true := by
  by_cases hp : ∀ t, ¬ Picks fs g n.groupPath t
  · exact ⟨n, hn, rfl, (considerTest_iff h hn).mpr (Or.inr ⟨hs, ht, Or.inl hp⟩)⟩
  · push Not at hp
    obtain ⟨t, f, hf, hp, hhit⟩ := hp
    obtain ⟨k, hk, hks, hpar, hgp, rfl⟩ := Group.exists_leaf_of_pair h hn hs hp
    refine ⟨k, hk, hpar, ?_⟩
    exact (considerTest_iff h hk).mpr
      (Or.inr ⟨hks, hgp ▸ ht, Or.inr (hgp ▸ ⟨f, hf, hp, hhit⟩)⟩)

/-- **Below a group that a restricting filter lets through** there is a test it lets through. -/
theorem exists_considerTest_below (hr : Restricts fs g) {m : Node} (hm : m ∈ g.nodes [] [])
    (hroot : m.parents ≠ []) (hc : (Filter.new fs g).considerGroup m.parents m.name = true) :
    ∃ n ∈ g.leaves, m.names <+: n.parents ∧
      (Filter.new fs g).considerTest n.parents n.name = true := by
  obtain hn | ⟨f, hf, n, hn, hs, hmatch, hpre⟩ := (considerGroup_iff h hm hroot).mp hc
  · exact absurd hr hn
  · have htouch : Touches fs g n.groupPath :=
      ⟨f, hf, n.name, (Group.mem_subgroupTests h).mpr ⟨n, hn, hs, rfl⟩, hmatch⟩
    obtain ⟨k, hk, hpar, hc⟩ := exists_considerTest_of_touches h hn hs htouch
    exact ⟨k, hk, hpar ▸ hpre, hc⟩

end Answers

end E2etest
