import E2etest.Selection

/-!
# What the fields of a filter hold

`Filter.WellFormed` is what the queries rely on, and what every filter that `Filter::new` builds has
(`new_wellFormed`): the map and the set are empty together; a key is the path of a group with a test
to run; the names under it are those of tests there; and the set holds the paths of the groups with a
key and of those around them.

The map is keyed by paths, so groups with the same path share a key, and the names under it may be
those of tests of several of them (`names_of_two_groups`). Where the path is that of one group alone
they are those of its own tests (`WellFormed.own_tests`, `new_fields`).
-/

namespace E2etest

open Text

/-- The test `t` is one of the tests of the group `n`. -/
def Node.Holds (n t : Node) : Prop := n.id = .group t.id.pos

instance (n t : Node) : Decidable (n.Holds t) := inferInstanceAs (Decidable (_ = _))

namespace Group

/-- The groups of a tree without the root. -/
def subgroups (g : Group) : List Node :=
  (g.nodes [] []).filter fun n => !n.id.isTest && decide (n.id ≠ .group [])

variable {g : Group} {n t : Node}

theorem mem_subgroups : n ∈ g.subgroups ↔
    n ∈ g.nodes [] [] ∧ n.id.isTest = false ∧ n.id ≠ .group [] := by
  simp [subgroups]

mutual

/-- Every test is in a group, which gives it the names on the way. -/
theorem exists_holds (pos : List Nat) (parents : List Str) :
    ∀ g : Group, ∀ t ∈ g.nodes pos parents, t.id.isTest = true →
      ∃ n ∈ g.nodes pos parents, n.Holds t ∧ n.names = t.parents
  | .mk name f ts gs => by
    intro t ht htest
    rcases List.mem_cons.mp ht with rfl | ht
    · cases htest
    rcases List.mem_append.mp ht with ht | ht
    · obtain ⟨n, hn, h⟩ := exists_holdsOf pos 0 (parents ++ [name]) gs t ht htest
      exact ⟨n, List.mem_cons_of_mem _ (List.mem_append_left _ hn), h⟩
    · obtain ⟨u, i, -, rfl⟩ := mem_testNodes.mp ht
      exact ⟨_, List.mem_cons_self, rfl, rfl⟩

theorem exists_holdsOf (pos : List Nat) (j : Nat) (parents : List Str) :
    ∀ gs : List Group, ∀ t ∈ nodesOf pos j parents gs, t.id.isTest = true →
      ∃ n ∈ nodesOf pos j parents gs, n.Holds t ∧ n.names = t.parents
  | [] => by simp [nodesOf]
  | g :: gs => by
    intro t ht htest
    rcases List.mem_append.mp ht with ht | ht
    · obtain ⟨n, hn, h⟩ := exists_holds (pos ++ [j]) parents g t ht htest
      exact ⟨n, List.mem_append_left _ hn, h⟩
    · obtain ⟨n, hn, h⟩ := exists_holdsOf pos (j + 1) parents gs t ht htest
      exact ⟨n, List.mem_append_right _ hn, h⟩

end

/-- The root is the node without groups around it. -/
theorem ne_root_iff (hn : n ∈ g.nodes [] []) : n.id ≠ .group [] ↔ n.parents ≠ [] := by
  refine ⟨parents_ne_nil hn, fun hpar hid => ?_⟩
  obtain rfl | ⟨hne, -⟩ := eq_or_encloses hn
  · exact hpar rfl
  · exact hne hid

/-- **The group of a test** of a subgroup. -/
theorem exists_subgroup (ht : t ∈ g.leaves) (hs : t.InSubgroup) :
    ∃ n ∈ g.subgroups, n.Holds t ∧ n.names = t.parents := by
  obtain ⟨hm, htest⟩ := mem_leaves.mp ht
  obtain ⟨n, hn, hholds, hnames⟩ := exists_holds [] [] g t hm htest
  refine ⟨n, mem_subgroups.mpr ⟨hn, ?_, (ne_root_iff hn).mpr fun hpar => hs ?_⟩, hholds, hnames⟩
  · rw [hholds]
    rfl
  · rw [← hnames, Node.names, hpar]
    rfl

end Group

/-- **What the fields of a filter hold**, for the tree `g`. -/
structure Filter.WellFormed (g : Group) (f : Filter) : Prop where
  empty_iff : f.tests.keys = [] ↔ f.groups = ∅
  keys : ∀ k ∈ f.tests, ∃ n ∈ g.subgroups, n.path = k ∧
    ∃ t ∈ g.leaves, n.Holds t ∧ f.considerTest n.names t.name = true
  names : ∀ k S, f.tests.lookup k = some S → ∀ name ∈ S, ∃ n ∈ g.subgroups, n.path = k ∧
    ∃ t ∈ g.leaves, n.Holds t ∧ t.name = name
  groups : ∀ s, s ∈ f.groups ↔ ∃ n ∈ g.subgroups, n.path ∈ f.tests ∧
    ∃ m ∈ g.subgroups, (m = n ∨ m.id.Encloses n.id) ∧ m.path = s

/-- **The names of a group whose path is its alone** are those of its own tests. -/
theorem Filter.WellFormed.own_tests {g : Group} {f : Filter} (hf : f.WellFormed g) {n : Node}
    (halone : ∀ m ∈ g.subgroups, m.path = n.path → m = n) {S : Finset Str}
    (hl : f.tests.lookup n.path = some S) {name : Str} (hname : name ∈ S) :
    ∃ t ∈ g.leaves, n.Holds t ∧ t.name = name := by
  obtain ⟨m, hm, hpath, h⟩ := hf.names n.path S hl name hname
  rwa [halone m hm hpath] at h

section Keys

variable {fs : List Str} {g : Group} {n m t : Node}

/-- The key of a test of a subgroup. -/
theorem Group.key_eq (ht : t ∈ g.leaves) (hs : t.InSubgroup) :
    g.name ++ sep ++ t.groupPath = join t.parents := by
  unfold Node.groupPath
  rw [← join_cons g.name hs, ← leaf_parents ht]

variable (h : g.ColonFree)

include h

/-- **The keys** are the paths of the groups that the strings touch. -/
theorem mem_tests_iff_touches {k : Str} : k ∈ (Filter.new fs g).tests ↔
    ∃ t ∈ g.leaves, t.InSubgroup ∧ Touches fs g t.groupPath ∧ k = join t.parents := by
  constructor
  · intro hk
    obtain ⟨v, hv, hmiss, rfl⟩ := ((Filter.new_represents fs g).keys k).mp hk
    obtain ⟨f, hf, p, hp, rfl⟩ := (mem_visits fs g).mp hv
    obtain ⟨t, ht, hs, rfl⟩ := (Group.mem_subgroupTests h).mp hp
    exact ⟨t, ht, hs, ⟨f, hf, t.name, hp, (hit_ne_miss f _ _).mp hmiss⟩, Group.key_eq ht hs⟩
  · rintro ⟨t, ht, hs, htouch, rfl⟩
    rw [← Group.key_eq ht hs]
    exact (mem_tests_iff fs g t.groupPath).mpr htouch

/-- **A key has a test to run.** -/
theorem key_runs {k : Str} (hk : k ∈ (Filter.new fs g).tests) :
    ∃ n ∈ g.subgroups, n.path = k ∧
      ∃ t ∈ g.leaves, n.Holds t ∧ (Filter.new fs g).considerTest n.names t.name = true := by
  obtain ⟨t, ht, hs, htouch, rfl⟩ := (mem_tests_iff_touches h).mp hk
  obtain ⟨u, hu, hpar, hc⟩ := exists_considerTest_of_touches h ht hs htouch
  have hus : u.InSubgroup := by
    unfold Node.InSubgroup
    rwa [hpar]
  obtain ⟨n, hn, hholds, hnames⟩ := Group.exists_subgroup hu hus
  refine ⟨n, hn, ?_, u, hu, hholds, hnames ▸ hc⟩
  unfold Node.path
  rw [hnames, hpar]

/-- **A name under a key** is that of a test of a group with the path. -/
theorem key_names {k : Str} {S : Finset Str} (hl : (Filter.new fs g).tests.lookup k = some S)
    {name : Str} (hname : name ∈ S) :
    ∃ n ∈ g.subgroups, n.path = k ∧ ∃ t ∈ g.leaves, n.Holds t ∧ t.name = name := by
  have hk : k ∈ (Filter.new fs g).tests := AList.lookup_isSome.mp (by rw [hl]; rfl)
  obtain ⟨t, ht, hs, -, rfl⟩ := (mem_tests_iff_touches h).mp hk
  rw [← Group.key_eq ht hs] at hl
  obtain ⟨f, -, hp, -⟩ := (mem_names_iff fs g hl name).mp hname
  obtain ⟨u, hu, hus, hpar, -, rfl⟩ := Group.exists_leaf_of_pair h ht hs hp
  obtain ⟨n, hn, hholds, hnames⟩ := Group.exists_subgroup hu hus
  refine ⟨n, hn, ?_, u, hu, hholds, rfl⟩
  unfold Node.path
  rw [hnames, hpar]

/-- A group with a key is touched, and so are the groups around it. -/
theorem mem_groups_of_key (hn : n ∈ g.subgroups) (hk : n.path ∈ (Filter.new fs g).tests)
    (hm : m ∈ g.subgroups) (hmn : m = n ∨ m.id.Encloses n.id) :
    m.path ∈ (Filter.new fs g).groups := by
  obtain ⟨hn, -, -⟩ := Group.mem_subgroups.mp hn
  obtain ⟨hm, -, hroot⟩ := Group.mem_subgroups.mp hm
  obtain ⟨t, ht, hs, ⟨f, hf, name, hp, hmatch⟩, he⟩ := (mem_tests_iff_touches h).mp hk
  obtain ⟨u, hu, hus, hpar, hgp, rfl⟩ := Group.exists_leaf_of_pair h ht hs hp
  have hnames : n.names = t.parents := by
    refine join_injective (by simp [Node.names]) ?_ (h n hn) (h.parents ht) he
    rw [Group.leaf_parents ht]
    exact List.cons_ne_nil _ _
  have hpre : m.names <+: n.names := by
    rcases hmn with rfl | henc
    · exact List.prefix_rfl
    · exact (Group.encloses_names [] [] g m hm n hn henc).trans (List.prefix_append _ _)
  refine (mem_groups_iff h hm ((Group.ne_root_iff hm).mp hroot)).mpr
    ⟨f, hf, u, hu, hus, hgp ▸ hmatch, ?_⟩
  rwa [hpar, ← hnames]

omit h in
/-- Every group on the way to a subgroup is that subgroup or around it. -/
theorem Group.exists_onWay (hn : n ∈ g.subgroups) {ns : List Str} (hne : ns ≠ [])
    (hpre : g.name :: ns <+: n.names) :
    ∃ m ∈ g.subgroups, (m = n ∨ m.id.Encloses n.id) ∧ m.names = g.name :: ns := by
  by_cases hnames : n.names = g.name :: ns
  · exact ⟨n, hn, Or.inl rfl, hnames⟩
  · obtain ⟨hmem, -, -⟩ := mem_subgroups.mp hn
    have hpar : g.name :: ns <+: n.parents :=
      (List.prefix_concat_iff.mp hpre).resolve_left fun he => hnames he.symm
    have hroot : [] ++ [g.name] <+: g.name :: ns := List.prefix_append [g.name] ns
    obtain ⟨m, hm, hns, henc⟩ := exists_enclosing [] [] g n hmem _ hroot hpar
    refine ⟨m, mem_subgroups.mpr ⟨hm, henc.isTest_left, (ne_root_iff hm).mpr fun hnil => ?_⟩,
      Or.inr henc, hns⟩
    rw [Node.names, hnil] at hns
    exact hne (List.cons.inj hns).2.symm

/-- **A path in the set** is that of a group with a key, or of one around it. -/
theorem exists_key_of_mem_groups {s : Str} (hs : s ∈ (Filter.new fs g).groups) :
    ∃ n ∈ g.subgroups, n.path ∈ (Filter.new fs g).tests ∧
      ∃ m ∈ g.subgroups, (m = n ∨ m.id.Encloses n.id) ∧ m.path = s := by
  obtain ⟨v, hv, hmiss, ns, hne, hpre, rfl⟩ := ((Filter.new_represents fs g).groups s).mp hs
  obtain ⟨f, hf, p, hp, rfl⟩ := (mem_visits fs g).mp hv
  obtain ⟨t, ht, hts, rfl⟩ := (Group.mem_subgroupTests h).mp hp
  obtain ⟨n, hn, -, hnames⟩ := Group.exists_subgroup ht hts
  have hkey : n.path ∈ (Filter.new fs g).tests := by
    refine (mem_tests_iff_touches h).mpr
      ⟨t, ht, hts, ⟨f, hf, t.name, hp, (hit_ne_miss f _ _).mp hmiss⟩, ?_⟩
    unfold Node.path
    rw [hnames]
  rw [Group.split_groupPath h ht hts] at hpre
  have hway : g.name :: ns <+: n.names := by
    rw [hnames, Group.leaf_parents ht]
    exact (List.prefix_cons_inj _).mpr hpre
  obtain ⟨m, hm, hmn, hmnames⟩ := Group.exists_onWay hn hne hway
  refine ⟨n, hn, hkey, m, hm, hmn, ?_⟩
  unfold Node.path
  rw [hmnames]

/-- **`Filter::new` builds well-formed filters.** -/
theorem new_wellFormed (fs : List Str) : (Filter.new fs g).WellFormed g where
  empty_iff := not_iff_not.mp ((restricted_iff fs g).trans (groups_empty_iff fs g).symm)
  keys _ := key_runs h
  names _ _ hl _ := key_names h hl
  groups _ := by
    refine ⟨exists_key_of_mem_groups h, ?_⟩
    rintro ⟨n, hn, hk, m, hm, hmn, rfl⟩
    exact mem_groups_of_key h hn hk hm hmn

/-- **The representation invariant** of every filter `Filter::new` builds. -/
theorem new_fields (fs : List Str) : (Filter.new fs g).WellFormed g ∧
    ∀ n ∈ g.subgroups, (∀ m ∈ g.subgroups, m.path = n.path → m = n) →
      ∀ S, (Filter.new fs g).tests.lookup n.path = some S →
        ∀ name ∈ S, ∃ t ∈ g.leaves, n.Holds t ∧ t.name = name := by
  have hf := new_wellFormed h fs
  exact ⟨hf, fun n _ halone S hl name hname => hf.own_tests halone hl hname⟩

end Keys

/-- A root group `r` with two subgroups `a`, which have the tests `x` and `y`, and a subgroup `b`
with the test `z`. -/
def namesakes : Group :=
  .mk ['r'] { typeId := 0 } []
    [.mk ['a'] { typeId := 1 } [{ name := ['x'], fixture := { typeId := 2 } }] [],
      .mk ['a'] { typeId := 3 } [{ name := ['y'], fixture := { typeId := 4 } }] [],
      .mk ['b'] { typeId := 5 } [{ name := ['z'], fixture := { typeId := 6 } }] []]

/-- The path of the group `b` is its alone. -/
theorem new_fields_namesakes :
    let n : Node := ⟨.group [2], [['r']], ['b'], { typeId := 5 }⟩
    (Filter.new [['x'], ['y'], ['z']] namesakes).WellFormed namesakes ∧
      ∃ S, (Filter.new [['x'], ['y'], ['z']] namesakes).tests.lookup n.path = some S ∧ S ≠ ∅ ∧
        ∀ name ∈ S, ∃ t ∈ namesakes.leaves, n.Holds t ∧ t.name = name := by
  intro n
  obtain ⟨hf, halone⟩ := new_fields (show namesakes.ColonFree by decide) [['x'], ['y'], ['z']]
  exact ⟨hf, {['z']}, by decide, by decide, halone n (by decide) (by decide) _ (by decide)⟩

/-- **The names under the path of two groups** are those of tests of both. -/
theorem names_of_two_groups :
    namesakes.ColonFree ∧ (∀ n ∈ namesakes.nodes [] [], n.name ≠ []) ∧
      ∃ S, (Filter.new [['x'], ['y']] namesakes).tests.lookup (join [['r'], ['a']]) = some S ∧
        ¬ ∃ n ∈ namesakes.subgroups, n.path = join [['r'], ['a']] ∧
          ∀ name ∈ S, ∃ t ∈ namesakes.leaves, n.Holds t ∧ t.name = name :=
  ⟨by decide, by decide, {['x'], ['y']}, by decide, by decide⟩

end E2etest
