import E2etest.FilterForms
import E2etest.Registration
import E2etest.Text.Settings

/-!
# The registered hierarchy

* `registered_once`: a group has a tree, unless it is registered below itself, and then every test is
  in the tree once, or not at all, under the names of the groups from the root down to its own.
* `hierarchy_kept`: the slices give the hierarchy that is written, where the compiler finds the groups
  by the paths written and their slices beside them.
* `link_order_free`: the order of the slices only changes the order of the nodes, and neither what a
  run includes nor what its filter answers.
-/

namespace E2etest

open Text Relation Trees

/-! ## The nodes of a tree -/

namespace Group

theorem placedOf_eq (gs : List Group) : placedOf gs = (gs.map placed).flatten := by
  induction gs with
  | nil => rfl
  | cons g gs ih => rw [placedOf, ih, List.map_cons, List.flatten_cons]

/-- What a tree says of a test. -/
def sayLeaf (n : Node) : List Str × Str × Fixture := (n.parents, n.name, n.fixture)

def sayPlaced (parents : List Str) (t : List Str × Test) : List Str × Str × Fixture :=
  (parents ++ t.1, t.2.name, t.2.fixture)

theorem testNodes_placed (pos : List Nat) (parents : List Str) (ts : List Test) :
    (testNodes pos parents ts).map sayLeaf =
      (ts.map (Prod.mk [])).map (sayPlaced parents) := by
  have hsay : (fun t : Test × Nat => sayLeaf ⟨.test pos t.2, parents, t.1.name, t.1.fixture⟩) =
      (fun t => sayPlaced parents ([], t)) ∘ Prod.fst := by
    funext t
    simp [sayLeaf, sayPlaced]
  rw [testNodes, List.map_map, List.map_map]
  exact (congrArg (List.map · ts.zipIdx) hsay).trans (by rw [← List.map_map, List.zipIdx_map_fst]; rfl)

mutual

theorem nodes_placed (pos : List Nat) (parents : List Str) : ∀ g : Group,
    ((g.nodes pos parents).filter fun n => n.id.isTest).map sayLeaf =
      g.placed.map (sayPlaced parents)
  | .mk name f ts gs => by
    rw [nodes, List.filter_cons_of_neg (by simp [NodeId.isTest]), List.filter_append,
      isTest_testNodes, List.map_append, nodesOf_placed, testNodes_placed, ← List.map_append,
      placed, List.map_map]
    refine List.map_congr_left fun t _ => ?_
    simp [sayPlaced]

theorem nodesOf_placed (pos : List Nat) (j : Nat) (parents : List Str) : ∀ gs : List Group,
    ((nodesOf pos j parents gs).filter fun n => n.id.isTest).map sayLeaf =
      (placedOf gs).map (sayPlaced parents)
  | [] => rfl
  | g :: gs => by
    rw [nodesOf, List.filter_append, List.map_append, nodes_placed, nodesOf_placed, placedOf,
      List.map_append]

end

theorem nestedOf_eq (gs : List Group) : nestedOf gs = (gs.map nested).flatten := by
  induction gs with
  | nil => rfl
  | cons g gs ih => rw [nestedOf, ih, List.map_cons, List.flatten_cons]

/-- What a tree says of a group, inside the groups `parents`. -/
def sayNested (parents : List Str) (t : List Str × Str × Fixture) : List Str × Str × Fixture :=
  (parents ++ t.1, t.2)

theorem not_isTest_testNodes (pos : List Nat) (parents : List Str) (ts : List Test) :
    (testNodes pos parents ts).filter (fun n => !n.id.isTest) = [] := by
  rw [List.filter_eq_nil_iff]
  intro n hn
  obtain ⟨t, i, -, rfl⟩ := mem_testNodes.mp hn
  simp [NodeId.isTest]

mutual

theorem nodes_nested (pos : List Nat) (parents : List Str) : ∀ g : Group,
    (((g.nodes pos parents).filter fun n => !n.id.isTest).map sayLeaf).Perm
      (g.nested.map (sayNested parents))
  | .mk name f ts gs => by
    have hown : sayNested parents ([], name, f) = (parents, name, f) :=
      Prod.ext (List.append_nil parents) rfl
    have hbelow : (nestedOf gs).map (sayNested (parents ++ [name])) =
        (nestedOf gs).map (sayNested parents ∘ Prod.map (name :: ·) id) := by
      refine List.map_congr_left fun t _ => ?_
      simp [sayNested]
    rw [nodes, List.filter_cons_of_pos (by simp [NodeId.isTest]), List.filter_append,
      not_isTest_testNodes, List.append_nil, List.map_cons, nested, List.map_append, List.map_map,
      List.map_singleton, hown, ← hbelow]
    exact ((nodesOf_nested pos 0 _ gs).cons _).trans (List.perm_append_singleton _ _).symm

theorem nodesOf_nested (pos : List Nat) (j : Nat) (parents : List Str) : ∀ gs : List Group,
    (((nodesOf pos j parents gs).filter fun n => !n.id.isTest).map sayLeaf).Perm
      ((nestedOf gs).map (sayNested parents))
  | [] => .refl _
  | g :: gs => by
    rw [nodesOf, List.filter_append, List.map_append, nestedOf, List.map_append]
    exact (nodes_nested _ parents g).append (nodesOf_nested pos _ parents gs)

end

/-- **The nodes of a tree** are its groups and its tests. -/
theorem entries_perm (g : Group) : ((g.nodes [] []).map Node.entry).Perm
    (g.placed.map (fun t => (true, sayPlaced [] t)) ++
      g.nested.map fun t => (false, sayNested [] t)) := by
  have htests : ((g.nodes [] []).filter fun n => n.id.isTest).map Node.entry =
      g.placed.map fun t => (true, sayPlaced [] t) := by
    have h := congrArg (List.map (Prod.mk true)) (nodes_placed [] [] g)
    rw [List.map_map, List.map_map] at h
    refine (List.map_congr_left fun n hn => ?_).trans h
    have ht : n.id.isTest = true := (List.mem_filter.mp hn).2
    exact Prod.ext ht rfl
  have hgroups : (((g.nodes [] []).filter fun n => !n.id.isTest).map Node.entry).Perm
      (g.nested.map fun t => (false, sayNested [] t)) := by
    have h := (nodes_nested [] [] g).map (Prod.mk false)
    rw [List.map_map, List.map_map] at h
    refine (List.Perm.of_eq (List.map_congr_left fun n hn => ?_)).trans h
    have ht : n.id.isTest = false := (Bool.not_eq_true' _).mp (List.mem_filter.mp hn).2
    exact Prod.ext ht rfl
  refine ((List.filter_append_perm (fun n : Node => n.id.isTest) _).symm.map _).trans ?_
  rw [List.map_append, htests]
  exact hgroups.append_left _

/-- `test_names` lists the tests. -/
theorem testNames_placed (g : Group) :
    g.testNames = g.placed.map fun t => join (t.1.tail ++ [t.2.name]) := by
  have h := nodes_placed [] [] g
  have hname : ∀ n : Node, n.nameBelow = join ((sayLeaf n).1.tail ++ [(sayLeaf n).2.1]) :=
    fun _ => rfl
  rw [testNames_eq_leaves, leaves, List.map_congr_left fun n _ => hname n]
  have := congrArg (List.map fun t : List Str × Str × Fixture => join (t.1.tail ++ [t.2.1])) h
  rw [List.map_map, List.map_map] at this
  exact this

end Group

/-! ## Every test once -/

namespace Program

variable {c : Cases} {p : Program c} {s : Scope} {root : GroupItem c}

theorem nodup_slices {f : GroupItem c → ItemPath} (hf : ∀ g, f g ∈ GroupItem.items g) :
    (p.groups.map f).Nodup := by
  have hnd := (List.nodup_append.mp p.distinct).1
  rw [List.nodup_flatMap] at hnd
  refine List.pairwise_map.mpr (hnd.2.imp fun {g h} hdis he => ?_)
  exact hdis (hf g) (he ▸ hf h)

theorem groupsSlice_mem (g : GroupItem c) : g.groupsSlice ∈ g.items := by
  simp [GroupItem.groupsSlice, GroupItem.items, GroupCode.items]

theorem testsSlice_mem (g : GroupItem c) : g.testsSlice ∈ g.items := by
  simp [GroupItem.testsSlice, GroupItem.items, GroupCode.items]

theorem nodup_groups : p.groups.Nodup := (nodup_slices groupsSlice_mem).of_map _

/-- A slice tells whose it is. -/
theorem find?_slice {κ : Type} {k : κ} {f : GroupItem c → ItemPath} {inj : ItemPath → κ}
    [DecidableEq κ] (hinj : Function.Injective inj) (hf : ∀ g, f g ∈ GroupItem.items g)
    (i : GroupItem c) :
    p.groups.find? (fun h => decide (k = inj (f h))) = some i ↔ i ∈ p.groups ∧ k = inj (f i) := by
  constructor
  · intro h
    exact ⟨List.mem_of_find?_eq_some h, by simpa using List.find?_some h⟩
  · rintro ⟨hi, rfl⟩
    obtain ⟨j, hj⟩ : ∃ j, p.groups.find? (fun h => decide (inj (f i) = inj (f h))) = some j :=
      Option.isSome_iff_exists.mp (List.find?_isSome.mpr ⟨i, hi, by simp⟩)
    have hij : f i = f j := hinj (by simpa using List.find?_some hj)
    rw [hj, List.inj_on_of_nodup_map (nodup_slices hf) (List.mem_of_find?_eq_some hj) hi hij.symm]

theorem parent_iff (g i : GroupItem c) : p.parent s g = some i ↔
    i ∈ p.groups ∧ g.registeredIn s = some i.groupsSlice :=
  find?_slice (Option.some_injective _) groupsSlice_mem i

theorem groupOf_iff (t : TestItem c) (i : GroupItem c) : p.groupOf s t = some i ↔
    i ∈ p.groups ∧ t.registeredIn s = i.testsSlice :=
  find?_slice Function.injective_id testsSlice_mem i

theorem mem_subgroups {g h : GroupItem c} : h ∈ p.subgroups s g ↔
    h ∈ p.groups ∧ h.registeredIn s = some g.groupsSlice := by
  simp [subgroups]

/-- The slices make a forest. -/
theorem forest : Forest (p.subgroups s) (p.parent s) p.groups where
  closed _ _ h := (mem_subgroups.mp h).1
  nodup _ := nodup_groups.filter _
  parent_iff j hj i := by
    rw [parent_iff, mem_subgroups]
    exact and_congr_right fun _ => (and_iff_right hj).symm

/-- A test of a group, under the names on the way to it. -/
def named (s : Scope) (w : Way (GroupItem c)) (t : TestItem c) : List Str × Test :=
  ((w.1 ++ [w.2]).map fun h => h.code.name, t.test s)

/-- The tests on the ways of a tree. -/
def hung (p : Program c) (s : Scope) (ws : List (Way (GroupItem c))) : List (List Str × Test) :=
  ws.flatMap fun w => (p.testsOf s w.2).map (named s w)

/-- The tests of a group, from those of its subgroups. -/
def gather (p : Program c) (s : Scope) (g : GroupItem c) (tss : List (List (List Str × Test))) :
    List (List Str × Test) :=
  (tss.flatten ++ (p.testsOf s g).map fun t : TestItem c => ([], t.test s)).map
    (Prod.map (g.code.name :: ·) id)

theorem hung_joinWays (g : GroupItem c) (wss : List (List (Way (GroupItem c)))) :
    p.hung s (joinWays g wss) = p.gather s g (wss.map (p.hung s)) := by
  have hstep : ∀ ws : List (Way (GroupItem c)),
      p.hung s (ws.map fun w => (g :: w.1, w.2)) =
        (p.hung s ws).map (Prod.map (g.code.name :: ·) id) := by
    intro ws
    unfold hung
    rw [List.flatMap_map, List.map_flatMap]
    simp only [List.map_map]
    rfl
  have hflat : p.hung s wss.flatten = (wss.map (p.hung s)).flatten := by
    induction wss with
    | nil => rfl
    | cons ws wss ih =>
      rw [List.flatten_cons, List.map_cons, List.flatten_cons, ← ih]
      exact List.flatMap_append
  have hlast : p.hung s [([], g)] = ((p.testsOf s g).map fun t : TestItem c => ([], t.test s)).map
      (Prod.map (g.code.name :: ·) id) := by
    unfold hung
    rw [List.flatMap_singleton, List.map_map]
    rfl
  unfold joinWays gather
  rw [List.map_append, ← hflat, ← hstep, ← hlast]
  exact List.flatMap_append

/-- The tests of the tree are those on its ways. -/
theorem placed_tree (n : Nat) (root : GroupItem c) :
    (p.tree s n root).map Group.placed = (ways (p.subgroups s) n root).map (p.hung s) := by
  have htree : (p.tree s n root).map Group.placed =
      unfold (p.subgroups s) (p.gather s) n root := by
    refine map_unfold (fun g gs => ?_) n root
    rw [Group.placed, Group.placedOf_eq, List.map_map]
    rfl
  exact htree.trans (map_unfold hung_joinWays n root).symm

/-- The place of a test of the group, when the group is below the root. -/
def placeIn (p : Program c) (s : Scope) (root g : GroupItem c) (t : TestItem c) :
    List (List Str × Test) :=
  ((climb (p.parent s) root p.groups.length g).map fun above => named s (above, g) t).toList

theorem hung_filterMap (gs : List (GroupItem c)) :
    p.hung s (gs.filterMap fun g =>
      (climb (p.parent s) root p.groups.length g).map fun above => (above, g)) =
      gs.flatMap fun g => (p.testsOf s g).flatMap (p.placeIn s root g) := by
  unfold hung
  rw [List.filterMap_eq_flatMap_toList, List.flatMap_assoc]
  refine List.flatMap_congr fun g _ => ?_
  unfold placeIn
  cases climb (p.parent s) root p.groups.length g with
  | none => exact (List.flatMap_eq_nil_iff.mpr fun _ _ => rfl).symm
  | some above => exact (List.flatMap_singleton _ _).trans List.map_eq_flatMap

/-- The tests on the ways to the groups, test by test. -/
theorem hung_perm_place (hroot : root ∈ p.groups) {n : Nat} {ws : List (Way (GroupItem c))}
    (hws : ways (p.subgroups s) n root = some ws) :
    (p.hung s ws).Perm (p.tests.filterMap (p.place s root)) := by
  have hways := (forest.ways_perm nodup_groups hroot hws).flatMap_right
    fun w => (p.testsOf s w.2).map (named s w)
  have howner : ∀ t ∈ p.tests, ∀ g, p.groupOf s t = some g ↔
      g ∈ p.groups ∧ decide (t.registeredIn s = g.testsSlice) = true := by
    intro t _ g
    rw [groupOf_iff, decide_eq_true_eq]
  have hplace : (p.tests.flatMap fun t => (p.groupOf s t).elim [] fun g => p.placeIn s root g t) =
      p.tests.filterMap (p.place s root) := by
    rw [List.filterMap_eq_flatMap_toList]
    refine List.flatMap_congr fun t _ => ?_
    unfold place
    cases p.groupOf s t <;> rfl
  refine hways.trans ?_
  rw [← hplace]
  exact (List.Perm.of_eq (hung_filterMap p.groups)).trans
    (hung_perm nodup_groups howner (p.placeIn s root))

/-- **Every test is in the tree once, or not at all.** -/
theorem placed_perm (hroot : root ∈ p.groups) {n : Nat} {g : Group}
    (h : p.tree s n root = some g) : g.placed.Perm (p.tests.filterMap (p.place s root)) := by
  have hplaced := placed_tree (p := p) (s := s) n root
  rw [h, Option.map_some, eq_comm, Option.map_eq_some_iff] at hplaced
  obtain ⟨ws, hws, he⟩ := hplaced
  exact he ▸ hung_perm_place hroot hws

/-- The groups of the tree are those on its ways. -/
theorem nested_tree (n : Nat) (root : GroupItem c) : (p.tree s n root).map Group.nested =
    (ways (p.subgroups s) n root).map (List.map fun w =>
      (w.1.map fun h => h.code.name, w.2.code.name, w.2.fixture s)) := by
  let f (g : GroupItem c) (tss : List (List (List Str × Str × Fixture))) :
      List (List Str × Str × Fixture) :=
    tss.flatten.map (Prod.map (g.code.name :: ·) id) ++ [([], g.code.name, g.fixture s)]
  have htree : (p.tree s n root).map Group.nested = unfold (p.subgroups s) f n root := by
    refine map_unfold (fun g gs => ?_) n root
    rw [Group.nested, Group.nestedOf_eq]
  refine htree.trans (map_unfold (fun g wss => ?_) n root).symm
  unfold joinWays
  rw [List.map_append, List.map_map, List.map_singleton]
  refine congrArg (· ++ [([], g.code.name, g.fixture s)]) ?_
  rw [← List.map_flatten, List.map_map]
  rfl

/-- **Every group is in the tree once, or not at all.** -/
theorem nested_perm (hroot : root ∈ p.groups) {n : Nat} {g : Group}
    (h : p.tree s n root = some g) : g.nested.Perm (p.groups.filterMap (p.spot s root)) := by
  have hnested := nested_tree (p := p) (s := s) n root
  rw [h, Option.map_some, eq_comm, Option.map_eq_some_iff] at hnested
  obtain ⟨ws, hws, he⟩ := hnested
  rw [← he]
  refine ((forest.ways_perm nodup_groups hroot hws).map _).trans (List.Perm.of_eq ?_)
  rw [List.map_filterMap]
  refine List.filterMap_congr fun h _ => ?_
  rw [spot, Option.map_map]
  rfl

theorem exists_tree_iff (hroot : root ∈ p.groups) :
    (∃ n, (p.tree s n root).isSome = true) ↔ ¬ TransGen (Child (p.subgroups s)) root root := by
  constructor
  · rintro ⟨n, h⟩ hcircle
    rw [tree, unfold_eq_none hcircle] at h
    cases h
  · exact fun hno => ⟨p.groups.length, (forest.isSome_unfold_iff hroot).mpr hno⟩

theorem name_tree {n : Nat} {g : Group} (h : p.tree s n root = some g) :
    g.name = root.code.name := by
  cases n with
  | zero => cases h
  | succ n =>
    obtain ⟨_, -, rfl⟩ := unfold_succ_eq_some.mp h
    rfl

end Program

/-- **Registration**: a group has a tree, unless it is registered below itself, and then every test
is in the tree once, or not at all: under the names of the groups that registration goes through from
the root down to it. -/
theorem registered_once {c : Cases} (p : Program c) (s : Scope) {root : GroupItem c}
    (hroot : root ∈ p.groups) :
    ((∃ n, (p.tree s n root).isSome = true) ↔ ¬ TransGen (Child (p.subgroups s)) root root) ∧
    ∀ n g, p.tree s n root = some g → g.placed.Perm (p.tests.filterMap (p.place s root)) :=
  ⟨Program.exists_tree_iff hroot, fun _ _ h => Program.placed_perm hroot h⟩

theorem registered_once_smallProgram : ∃ n g, smallProgram.tree smallScope n rootItem = some g ∧
    g.placed.Perm (smallProgram.tests.filterMap (smallProgram.place smallScope rootItem)) := by
  obtain ⟨g, hg⟩ : ∃ g, smallProgram.tree smallScope 2 rootItem = some g := ⟨_, rfl⟩
  exact ⟨2, g, hg, (registered_once smallProgram smallScope (by decide)).2 2 g hg⟩

/-! ## What is written -/

section Written

variable {c : Cases}

theorem renameLast_concat (error : Str) (rename : Str → Str) (init : SynPath) (last : Str) :
    renameLast error rename (init ++ [last]) = .ok (init ++ [rename last]) := by
  simp [renameLast]

theorem generateGroup_eq_ok {params : GroupParams} {code : GroupCode}
    (h : generateGroup c params = .ok code) : registerGroup c params.parent = .ok code.registerGroup ∧
      code.name = params.name ∧ code.groupGroups = groupGroupsName c params.name ∧
      code.groupTests = groupTestsName c params.name := by
  obtain ⟨r, hr, h⟩ := bind_eq_ok.mp h
  cases h
  exact ⟨hr, rfl, rfl, rfl⟩

theorem generateTest_eq_ok {params : TestParams} {run : ItemFn} {code : TestCode}
    (h : generateTest c params run = .ok code) :
    renameLast "Expected group path to have at least one segment".toList (groupTestsName c)
      params.group = .ok code.groupTests := by
  obtain ⟨r, hr, h⟩ := bind_eq_ok.mp h
  by_cases ha : (!run.isAsync) = true
  · rw [if_pos ha] at h
    cases h
  by_cases hd : (!run.returnsDefault) = true
  · rw [if_neg ha, if_pos hd] at h
    cases h
  rw [if_neg ha, if_neg hd] at h
  obtain ⟨fixtures, -, h⟩ := bind_eq_ok.mp h
  cases h
  exact hr

variable {p : Program c} {s : Scope}

/-- Where the group is put into a slice, it is that of the group it names. -/
theorem GroupItem.registeredIn_eq (hs : s.Finds p) {h : GroupItem c} (hh : h ∈ p.groups) :
    h.parentItem s = none ∧ h.registeredIn s = none ∨ ∃ g ∈ p.groups,
      h.parentItem s = some g.function ∧ h.registeredIn s = some g.groupsSlice := by
  have hcode := (generateGroup_eq_ok h.generated).1
  unfold GroupItem.parentItem GroupItem.registeredIn
  cases hp : h.params.parent with
  | none =>
    rw [hp] at hcode
    rw [← Except.ok.inj hcode]
    exact Or.inl ⟨rfl, rfl⟩
  | some path =>
    obtain ⟨g, hg, hpath⟩ := hs.parents h hh path hp
    obtain ⟨init, rfl, hgroups, -⟩ := hs.beside h.home path g hg hpath
    rw [hp, registerGroup, renameLast_concat] at hcode
    rw [← Except.ok.inj hcode, ← (generateGroup_eq_ok g.generated).2.2.1]
    exact Or.inr ⟨g, hg, congrArg some hpath, congrArg some hgroups⟩

theorem TestItem.registeredIn_eq (hs : s.Finds p) {t : TestItem c} (ht : t ∈ p.tests) :
    ∃ g ∈ p.groups, t.groupItem s = g.function ∧ t.registeredIn s = g.testsSlice := by
  have hcode := generateTest_eq_ok t.generated
  obtain ⟨g, hg, hpath⟩ := hs.groups t ht
  obtain ⟨init, hinit, -, htests⟩ := hs.beside t.home t.params.group g hg hpath
  rw [hinit, renameLast_concat, ← (generateGroup_eq_ok g.generated).2.2.2] at hcode
  refine ⟨g, hg, hpath, ?_⟩
  rw [TestItem.registeredIn, ← Except.ok.inj hcode]
  exact htests

theorem GroupItem.function_mem (g : GroupItem c) : g.function ∈ g.items := by
  rw [GroupItem.function, ← (generateGroup_eq_ok g.generated).2.1]
  simp [GroupItem.items, GroupCode.items]

/-- Functions and slices tell the same groups apart. -/
theorem Program.function_eq_iff {g h : GroupItem c} (hg : g ∈ p.groups) (hh : h ∈ p.groups)
    {slice : GroupItem c → ItemPath} (hslice : ∀ g, slice g ∈ GroupItem.items g) :
    h.function = g.function ↔ slice h = slice g := by
  constructor
  · intro he
    rw [List.inj_on_of_nodup_map (nodup_slices GroupItem.function_mem) hh hg he]
  · intro he
    rw [List.inj_on_of_nodup_map (nodup_slices hslice) hh hg he]

theorem Program.subgroups_eq (hs : s.Finds p) {g : GroupItem c} (hg : g ∈ p.groups) :
    p.subgroups s g = p.childrenOf s g := by
  refine List.filter_congr fun h hh => decide_eq_decide.mpr ?_
  rcases h.registeredIn_eq hs hh with ⟨hp, hr⟩ | ⟨i, hi, hp, hr⟩
  · simp [hp, hr]
  · rw [hp, hr, Option.some.injEq, Option.some.injEq]
    exact (function_eq_iff hg hi groupsSlice_mem).symm

theorem Program.testsOf_eq (hs : s.Finds p) {g : GroupItem c} (hg : g ∈ p.groups) :
    p.testsOf s g = p.tests.filter fun t => decide (t.groupItem s = g.function) := by
  refine List.filter_congr fun t ht => decide_eq_decide.mpr ?_
  obtain ⟨i, hi, hgroup, hr⟩ := t.registeredIn_eq hs ht
  rw [hgroup, hr]
  exact (function_eq_iff hg hi testsSlice_mem).symm

/-- **The macros keep what is written**: the slices that the code puts functions into give the
hierarchy that the paths written name. -/
theorem hierarchy_kept (hs : s.Finds p) {root : GroupItem c} (hroot : root ∈ p.groups) (n : Nat) :
    p.written s n root = p.tree s n root := by
  refine (unfold_congr (P := (· ∈ p.groups)) ?_ ?_ ?_ n root hroot).symm
  · exact fun _ _ _ hj => (Program.mem_subgroups.mp hj).1
  · exact fun g hg => Program.subgroups_eq hs hg
  · intro g hg
    rw [Program.testsOf_eq hs hg, (generateGroup_eq_ok g.generated).2.1]

theorem finds_smallProgram : smallScope.Finds smallProgram where
  parents := by decide
  groups := by decide
  beside home path g hg he := by
    obtain ⟨rfl, hlast⟩ := Prod.mk.inj he
    rcases List.eq_nil_or_concat path with rfl | ⟨init, last, rfl⟩
    · have hne : ∀ g ∈ smallProgram.groups, [] ≠ g.params.name := by decide
      exact absurd hlast (hne g hg)
    · rw [List.concat_eq_append, List.getLast?_concat, Option.getD_some] at hlast
      rw [List.concat_eq_append, hlast]
      refine ⟨init, rfl, ?_, ?_⟩ <;>
        simp [smallScope, flatScope, GroupItem.groupsSlice, GroupItem.testsSlice]

theorem hierarchy_kept_smallProgram :
    smallProgram.written smallScope 2 rootItem = smallProgram.tree smallScope 2 rootItem :=
  hierarchy_kept finds_smallProgram (by decide) 2

end Written

/-! ## The order of the slices -/

section LinkOrder

variable {c : Cases} {p p' : Program c} {s : Scope} {root : GroupItem c}

namespace Program

theorem parent_congr (h : p.groups.Perm p'.groups) : p.parent s = p'.parent s := by
  funext g
  refine Option.ext fun i => ?_
  rw [parent_iff, parent_iff, h.mem_iff]

theorem groupOf_congr (h : p.groups.Perm p'.groups) : p.groupOf s = p'.groupOf s := by
  funext t
  refine Option.ext fun i => ?_
  rw [groupOf_iff, groupOf_iff, h.mem_iff]

theorem place_congr (h : p.groups.Perm p'.groups) : p.place s root = p'.place s root := by
  funext t
  rw [place, place, parent_congr h, groupOf_congr h, h.length_eq]

theorem spot_congr (h : p.groups.Perm p'.groups) : p.spot s root = p'.spot s root := by
  funext g
  rw [spot, spot, parent_congr h, h.length_eq]

theorem child_congr (h : p.groups.Perm p'.groups) :
    Child (p.subgroups s) = Child (p'.subgroups s) := by
  funext g i
  exact propext (by rw [Child, Child, mem_subgroups, mem_subgroups, h.mem_iff])

end Program

theorem Group.testNames_perm {g g' : Group} (h : g.placed.Perm g'.placed) :
    g.testNames.Perm g'.testNames := by
  rw [testNames_placed, testNames_placed]
  exact h.map _

/-- Trees with the same tests give the same filters. -/
theorem Filter.agrees_of_placed {g g' : Group} (hname : g.name = g'.name)
    (h : g.placed.Perm g'.placed) (fs : List Str) : Agrees (new fs g) (new fs g') := by
  have hnames := Group.testNames_perm h
  refine (new_represents fs g).agrees (hname ▸ new_represents fs g') fun v => ?_
  have hpairs := hnames.filterMap rsplitOnce
  simp only [List.mem_flatMap, visitsOf, List.mem_map, hpairs.mem_iff]

section Run

variable {g g' : Group} {config : Config} {x x' : Sys} (hname : g.name = g'.name)
  (h : g.placed.Perm g'.placed) (hx : run config g = some x) (hx' : run config g' = some x')

include hname h hx hx'

theorem included_congr : x.state.statistics.included = x'.state.statistics.included := by
  ext name
  rw [(run_spec hx).2.2.1, (run_spec hx').2.2.1, hname]
  refine exists_congr fun test => and_congr (Group.testNames_perm h).mem_iff ?_
  have hconsiders : considersName (.new config.filters g) g'.name test =
      considersName (.new config.filters g') g'.name test :=
    (Filter.agrees_of_placed hname h config.filters).2 _ _
  rw [hconsiders]

theorem defined_congr : x.state.statistics.defined = x'.state.statistics.defined := by
  ext name
  rw [mem_defined_iff hx, mem_defined_iff hx', hname]
  exact exists_congr fun test => and_congr_left' (Group.testNames_perm h).mem_iff

end Run

/-- **The order of the slices does not count**: the trees of two orders have the same nodes, under the
same names and with the same fixtures, and runs of the two include the same tests, and let the same
ones through. -/
theorem link_order_free (hg : p.groups.Perm p'.groups) (ht : p.tests.Perm p'.tests)
    (hroot : root ∈ p.groups) :
    ((∃ n, (p.tree s n root).isSome = true) ↔ ∃ n, (p'.tree s n root).isSome = true) ∧
    ∀ n n' g g', p.tree s n root = some g → p'.tree s n' root = some g' →
      ((g.nodes [] []).map Node.entry).Perm ((g'.nodes [] []).map Node.entry) ∧
      g.placed.Perm g'.placed ∧
      ∀ config x x', run config g = some x → run config g' = some x' →
        x.state.statistics.included = x'.state.statistics.included ∧
        x.state.statistics.defined = x'.state.statistics.defined ∧
        Filter.Agrees (.new config.filters g) (.new config.filters g') := by
  have hroot' : root ∈ p'.groups := hg.mem_iff.mp hroot
  refine ⟨?_, fun n n' g g' h h' => ?_⟩
  · rw [Program.exists_tree_iff hroot, Program.exists_tree_iff hroot', Program.child_congr hg]
  · have hname : g.name = g'.name := (Program.name_tree h).trans (Program.name_tree h').symm
    have hplaced : g.placed.Perm g'.placed := by
      refine (Program.placed_perm hroot h).trans (List.Perm.trans ?_
        (Program.placed_perm hroot' h').symm)
      rw [Program.place_congr hg]
      exact ht.filterMap _
    have hnested : g.nested.Perm g'.nested := by
      refine (Program.nested_perm hroot h).trans (List.Perm.trans ?_
        (Program.nested_perm hroot' h').symm)
      rw [Program.spot_congr hg]
      exact hg.filterMap _
    have hnodes := (hplaced.map fun t => (true, Group.sayPlaced [] t)).append
      (hnested.map fun t => (false, Group.sayNested [] t))
    exact ⟨(Group.entries_perm g).trans (hnodes.trans (Group.entries_perm g').symm), hplaced,
      fun config x x' hx hx' => ⟨included_congr hname hplaced hx hx',
        defined_congr hname hplaced hx hx', Filter.agrees_of_placed hname hplaced config.filters⟩⟩

theorem link_order_free_smallProgram : ∃ n g g', smallProgram.tree smallScope n rootItem = some g ∧
    smallProgram'.tree smallScope n rootItem = some g' ∧
    ((g.nodes [] []).map Node.entry).Perm ((g'.nodes [] []).map Node.entry) ∧
    g.placed.Perm g'.placed := by
  obtain ⟨g, hg⟩ : ∃ g, smallProgram.tree smallScope 2 rootItem = some g := ⟨_, rfl⟩
  obtain ⟨g', hg'⟩ : ∃ g, smallProgram'.tree smallScope 2 rootItem = some g := ⟨_, rfl⟩
  obtain ⟨hnodes, hplaced, -⟩ :=
    (link_order_free (by decide) (by decide) (by decide)).2 2 2 g g' hg hg'
  exact ⟨2, g, g', hg, hg', hnodes, hplaced⟩

end LinkOrder

end E2etest
