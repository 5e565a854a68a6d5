import E2etest.Text.Path
import Mathlib.Data.List.Nodup

/-!
# Groups and tests (`group.rs`, `test.rs`)

What the traits `Fixture`, `Test` and `Group` tell the runner about a node, and `test_names`.

A node is identified by its position in the tree (`NodeId`): names may repeat. `Group.nodes` lists
every node with the names on the way to it; `testNames` is the same list of tests, as strings
(`testNames_eq`).
-/

namespace E2etest

open Text

/-- `std::any::TypeId`. -/
abbrev TypeId := Nat

/-- `std::time::Duration`. -/
abbrev Duration := Nat

/-- The static part of an implementation of `Fixture`, with the trait's defaults. -/
structure Fixture where
  typeId : TypeId
  timeoutSetup : Option Duration := none
  timeoutTeardown : Option Duration := none
  testCanRunConcurrently : Bool := false
  deriving DecidableEq, Repr

/-- An implementation of `Test`. -/
structure Test where
  name : Str
  fixture : Fixture
  timeout : Option Duration := none
  deriving DecidableEq, Repr

/-- `RunTest::can_run_concurrently`. -/
def Test.canRunConcurrently (t : Test) : Bool := t.fixture.testCanRunConcurrently

/-- An implementation of `Group`. -/
inductive Group
  | mk (name : Str) (fixture : Fixture) (tests : List Test) (groups : List Group)

/-- The position of a node: the group at `pos`, or its test number `i`. -/
inductive NodeId
  | group (pos : List Nat)
  | test (pos : List Nat) (i : Nat)
  deriving DecidableEq, Repr

namespace NodeId

def isTest : NodeId → Bool
  | .group _ => false
  | .test _ _ => true

/-- The position of the group, or of the group the test is in. -/
def pos : NodeId → List Nat
  | .group p => p
  | .test p _ => p

/-- The first node is a group around the second. -/
def Encloses : NodeId → NodeId → Prop
  | .group p, .group q => p <+: q ∧ p ≠ q
  | .group p, .test q _ => p <+: q
  | .test _ _, _ => False

instance : (n m : NodeId) → Decidable (Encloses n m)
  | .group p, .group q => inferInstanceAs (Decidable (p <+: q ∧ p ≠ q))
  | .group p, .test q _ => inferInstanceAs (Decidable (p <+: q))
  | .test _ _, .group _ | .test _ _, .test _ _ => inferInstanceAs (Decidable False)

theorem Encloses.prefix {n m : NodeId} (h : Encloses n m) : n.pos <+: m.pos := by
  cases n with
  | group p =>
    cases m with
    | group q => exact h.1
    | test q i => exact h
  | test p i => exact h.elim

theorem Encloses.isTest_left {n m : NodeId} (h : Encloses n m) : n.isTest = false := by
  cases n with
  | group p => rfl
  | test p i => exact h.elim

theorem Encloses.trans {n m k : NodeId} (h : Encloses n m) (h' : Encloses m k) : Encloses n k := by
  cases n with
  | test p i => exact h.elim
  | group p =>
    cases m with
    | test q i => exact h'.elim
    | group q =>
      cases k with
      | test r i => exact h.1.trans h'
      | group r =>
        refine ⟨h.1.trans h'.1, ?_⟩
        rintro rfl
        exact h.2 (h.1.eq_of_length_le h'.1.length_le)

theorem Encloses.length_lt {n m : NodeId} (h : Encloses n m) (ht : m.isTest = false) :
    n.pos.length < m.pos.length := by
  cases n with
  | test p i => exact h.elim
  | group p =>
    cases m with
    | test q i => cases ht
    | group q => exact lt_of_le_of_ne h.1.length_le fun he => h.2 (h.1.eq_of_length he)

theorem not_encloses_test (n : NodeId) (h : n.isTest = true) (m : NodeId) : ¬ Encloses n m :=
  fun he => by simp [he.isTest_left] at h

theorem not_encloses_symm {n m : NodeId} (h : Encloses n m) : ¬ Encloses m n := by
  intro h'
  cases n with
  | group p =>
    cases m with
    | group q => exact h.2 (h.1.eq_of_length_le h'.1.length_le)
    | test q i => exact h'
  | test p i => exact h

end NodeId

/-- A node of a tree, with the names of the groups around it, outermost first. -/
structure Node where
  id : NodeId
  parents : List Str
  name : Str
  fixture : Fixture
  deriving DecidableEq, Repr

namespace Node

/-- The names on the way to the node, its own last. -/
def names (n : Node) : List Str := n.parents ++ [n.name]

/-- The full path, which the statistics key by. -/
def path (n : Node) : Str := join n.names

/-- The path of the group a test is in, below the root. -/
def groupPath (n : Node) : Str := join n.parents.tail

/-- All but the position: whether it is a test, the groups around it, its name and its fixture. -/
def entry (n : Node) : Bool × List Str × Str × Fixture := (n.id.isTest, n.parents, n.name, n.fixture)

end Node

namespace Group

/-- `Group::name`. -/
def name : Group → Str
  | .mk n _ _ _ => n

/-- `Group::Fixture`. -/
def fixture : Group → Fixture
  | .mk _ f _ _ => f

/-- `Group::tests`. -/
def tests : Group → List Test
  | .mk _ _ ts _ => ts

/-- `Group::groups`. -/
def groups : Group → List Group
  | .mk _ _ _ gs => gs

mutual

/-- `RunGroup::test_names`. -/
def testNames : Group → List Str
  | .mk _ _ ts gs => testNamesOf gs ++ ts.map Test.name

/-- The `flat_map` over the subgroups in `test_names`. -/
def testNamesOf : List Group → List Str
  | [] => []
  | g :: gs => g.testNames.map (fun test => g.name ++ sep ++ test) ++ testNamesOf gs

end

/-- The tests of one group, as nodes. -/
def testNodes (pos : List Nat) (parents : List Str) (ts : List Test) : List Node :=
  ts.zipIdx.map fun t => ⟨.test pos t.2, parents, t.1.name, t.1.fixture⟩

mutual

/-- Every node of the tree of a group at `pos`, inside the groups `parents`. -/
def nodes (pos : List Nat) (parents : List Str) : Group → List Node
  | .mk n f ts gs =>
    ⟨.group pos, parents, n, f⟩ ::
      (nodesOf pos 0 (parents ++ [n]) gs ++ testNodes pos (parents ++ [n]) ts)

/-- Every node of the trees of the subgroups from number `j` on. -/
def nodesOf (pos : List Nat) (j : Nat) (parents : List Str) : List Group → List Node
  | [] => []
  | g :: gs => g.nodes (pos ++ [j]) parents ++ nodesOf pos (j + 1) parents gs

end

/-- The tests of a tree. -/
def leaves (g : Group) : List Node := (g.nodes [] []).filter fun n => n.id.isTest

/-- No name in the tree holds a `:`. -/
def ColonFree (g : Group) : Prop := ∀ n ∈ g.nodes [] [], ∀ s ∈ n.names, Text.ColonFree s

instance (g : Group) : Decidable g.ColonFree :=
  inferInstanceAs (Decidable (∀ n ∈ g.nodes [] [], ∀ s ∈ n.names, Text.ColonFree s))

/-- The full paths of groups and tests are pairwise distinct. -/
def DistinctPaths (g : Group) : Prop := ((g.nodes [] []).map Node.path).Nodup

instance (g : Group) : Decidable g.DistinctPaths :=
  inferInstanceAs (Decidable ((g.nodes [] []).map Node.path).Nodup)

end Group

/-! ## Where a node stands -/

namespace Group

theorem mem_testNodes {pos : List Nat} {parents : List Str} {ts : List Test} {n : Node} :
    n ∈ testNodes pos parents ts ↔
      ∃ t i, ts[i]? = some t ∧ n = ⟨.test pos i, parents, t.name, t.fixture⟩ := by
  simp only [testNodes, List.mem_map, Prod.exists, List.mem_zipIdx_iff_getElem?]
  exact exists_congr fun t => exists_congr fun i => and_congr_right fun _ => eq_comm

mutual

/-- Every node of a group stands at or below its position and below its name. -/
theorem nodes_spec (pos : List Nat) (parents : List Str) :
    ∀ (g : Group), ∀ n ∈ g.nodes pos parents, pos <+: n.id.pos ∧ parents ++ [g.name] <+: n.names ∧
      (n.id.isTest → parents ++ [g.name] <+: n.parents)
  | .mk name f ts gs => by
    intro n hn
    simp only [nodes, List.mem_cons, List.mem_append] at hn
    rcases hn with rfl | hn | hn
    · exact ⟨List.prefix_rfl, List.prefix_rfl, fun h => absurd h (by simp [NodeId.isTest])⟩
    · obtain ⟨i, -, hp, hs⟩ := nodesOf_spec pos 0 (parents ++ [name]) gs n hn
      exact ⟨(List.prefix_append _ _).trans hp, hs⟩
    · obtain ⟨t, i, -, rfl⟩ := mem_testNodes.mp hn
      exact ⟨List.prefix_rfl, List.prefix_append _ _, fun _ => List.prefix_rfl⟩

theorem nodesOf_spec (pos : List Nat) (j : Nat) (parents : List Str) :
    ∀ (gs : List Group), ∀ n ∈ nodesOf pos j parents gs,
      ∃ i, j ≤ i ∧ pos ++ [i] <+: n.id.pos ∧ parents <+: n.names ∧
        (n.id.isTest → parents <+: n.parents)
  | [] => by simp [nodesOf]
  | g :: gs => by
    intro n hn
    simp only [nodesOf, List.mem_append] at hn
    rcases hn with hn | hn
    · obtain ⟨hp, hs, ht⟩ := nodes_spec (pos ++ [j]) parents g n hn
      have hpre : parents <+: parents ++ [g.name] := List.prefix_append _ _
      exact ⟨j, le_rfl, hp, hpre.trans hs, fun h => hpre.trans (ht h)⟩
    · obtain ⟨i, hi, h⟩ := nodesOf_spec pos (j + 1) parents gs n hn
      exact ⟨i, by omega, h⟩

end

/-- The nodes of different subgroups stand at different positions. -/
theorem nodesOf_ne_nodes {pos : List Nat} {j : Nat} {parents parents' : List Str} {g : Group}
    {gs : List Group} {n m : Node} (hn : n ∈ g.nodes (pos ++ [j]) parents)
    (hm : m ∈ nodesOf pos (j + 1) parents' gs) : n.id ≠ m.id := by
  intro h
  obtain ⟨i, hi, hp, -⟩ := nodesOf_spec pos (j + 1) parents' gs m hm
  have hq := (nodes_spec (pos ++ [j]) parents g n hn).1
  rw [h] at hq
  have := List.prefix_or_prefix_of_prefix hp hq
  have hlen : (pos ++ [i]).length = (pos ++ [j]).length := by simp
  have heq : pos ++ [i] = pos ++ [j] := by
    rcases this with h' | h'
    · exact h'.eq_of_length hlen
    · exact (h'.eq_of_length hlen.symm).symm
  have : i = j := by simpa using heq
  omega

/-- A group and what is below it stand at different positions. -/
theorem group_ne_nodesOf {pos : List Nat} {j : Nat} {parents : List Str} {gs : List Group}
    {n : Node} (hn : n ∈ nodesOf pos j parents gs) : n.id ≠ .group pos := by
  intro h
  obtain ⟨i, -, hp, -⟩ := nodesOf_spec pos j parents gs n hn
  rw [h] at hp
  have := hp.length_le
  simp only [NodeId.pos, List.length_append, List.length_singleton] at this
  omega

/-- A test of a group and what is below the group's subgroups stand at different positions. -/
theorem test_ne_nodesOf {pos : List Nat} {j : Nat} {parents : List Str} {gs : List Group}
    {n : Node} (hn : n ∈ nodesOf pos j parents gs) (i : Nat) : n.id ≠ .test pos i := by
  intro h
  obtain ⟨_, -, hp, -⟩ := nodesOf_spec pos j parents gs n hn
  rw [h] at hp
  have := hp.length_le
  simp only [NodeId.pos, List.length_append, List.length_singleton] at this
  omega

theorem testNodes_ids_nodup (pos : List Nat) (parents : List Str) (ts : List Test) :
    ((testNodes pos parents ts).map Node.id).Nodup := by
  have hids : (testNodes pos parents ts).map Node.id
      = (ts.zipIdx.map Prod.snd).map (NodeId.test pos) := by
    simp only [testNodes, List.map_map, Function.comp_def]
  rw [hids, List.zipIdx_map_snd]
  exact List.Nodup.map (fun _ _ h => (NodeId.test.inj h).2) List.nodup_range'

mutual

/-- **A position identifies a node.** -/
theorem nodes_ids_nodup (pos : List Nat) (parents : List Str) :
    ∀ g : Group, ((g.nodes pos parents).map Node.id).Nodup
  | .mk name f ts gs => by
    simp only [nodes, List.map_cons, List.map_append, List.nodup_cons, List.nodup_append]
    refine ⟨?_, nodesOf_ids_nodup pos 0 _ gs, testNodes_ids_nodup _ _ _, ?_⟩
    · simp only [List.mem_append, List.mem_map, not_or, not_exists, not_and]
      refine ⟨fun n hn => group_ne_nodesOf hn, fun n hn => ?_⟩
      obtain ⟨t, i, -, rfl⟩ := mem_testNodes.mp hn
      simp
    · intro a ha b hb
      obtain ⟨n, hn, rfl⟩ := List.mem_map.mp ha
      obtain ⟨m, hm, rfl⟩ := List.mem_map.mp hb
      obtain ⟨t, i, -, rfl⟩ := mem_testNodes.mp hm
      exact test_ne_nodesOf hn i

theorem nodesOf_ids_nodup (pos : List Nat) (j : Nat) (parents : List Str) :
    ∀ gs : List Group, ((nodesOf pos j parents gs).map Node.id).Nodup
  | [] => by simp [nodesOf]
  | g :: gs => by
    simp only [nodesOf, List.map_append, List.nodup_append]
    refine ⟨nodes_ids_nodup _ _ g, nodesOf_ids_nodup pos (j + 1) parents gs, ?_⟩
    intro a ha b hb
    obtain ⟨n, hn, rfl⟩ := List.mem_map.mp ha
    obtain ⟨m, hm, rfl⟩ := List.mem_map.mp hb
    exact nodesOf_ne_nodes hn hm

end

/-! ## Which nodes enclose which -/

section Positions

variable {pos : List Nat} {parents : List Str} {gs : List Group} {g : Group} {n m : Node}

/-- A node below a subgroup does not enclose a test of the group. -/
theorem not_encloses_testNode (hn : n ∈ nodesOf pos 0 parents gs) (i : Nat) :
    ¬ NodeId.Encloses n.id (.test pos i) := by
  intro he
  obtain ⟨k, -, hp, -⟩ := nodesOf_spec pos 0 parents gs n hn
  have := (hp.trans he.prefix).length_le
  simp only [NodeId.pos, List.length_append, List.length_singleton] at this
  omega

/-- Nodes of different subgroups do not enclose each other. -/
theorem not_encloses_subgroups {j : Nat} (hn : n ∈ g.nodes (pos ++ [j]) parents)
    (hm : m ∈ nodesOf pos (j + 1) parents gs) :
    ¬ n.id.Encloses m.id ∧ ¬ m.id.Encloses n.id := by
  obtain ⟨k, hk, hp, -⟩ := nodesOf_spec pos (j + 1) parents gs m hm
  have hq := (nodes_spec (pos ++ [j]) parents g n hn).1
  have hclash : ∀ q : List Nat, pos ++ [j] <+: q → pos ++ [k] <+: q → False := by
    intro q hj hk'
    have heq := (List.prefix_of_prefix_length_le hj hk' (by simp)).eq_of_length (by simp)
    have : j = k := by simpa using heq
    omega
  exact ⟨fun he => hclash _ (hq.trans he.prefix) hp, fun he => hclash _ hq (hp.trans he.prefix)⟩

/-- A group encloses what is below it. -/
theorem encloses_below {name : Str} {ts : List Test}
    (hm : m ∈ nodesOf pos 0 (parents ++ [name]) gs ++ testNodes pos (parents ++ [name]) ts) :
    NodeId.Encloses (.group pos) m.id := by
  rcases List.mem_append.mp hm with hm | hm
  · obtain ⟨k, -, hp, -⟩ := nodesOf_spec pos 0 _ gs m hm
    have hpre : pos <+: m.id.pos := (List.prefix_append _ _).trans hp
    have hlen := hp.length_le
    simp only [List.length_append, List.length_singleton] at hlen
    cases hid : m.id with
    | group q =>
      rw [hid] at hpre hlen
      refine ⟨hpre, ?_⟩
      rintro rfl
      simp only [NodeId.pos] at hlen
      omega
    | test q i =>
      rw [hid] at hpre
      exact hpre
  · obtain ⟨t, i, -, rfl⟩ := mem_testNodes.mp hm
    exact List.prefix_rfl

theorem ne_group_of_below {name : Str} {ts : List Test}
    (hm : m ∈ nodesOf pos 0 (parents ++ [name]) gs ++ testNodes pos (parents ++ [name]) ts) :
    m.id ≠ .group pos := by
  rcases List.mem_append.mp hm with hm | hm
  · exact group_ne_nodesOf hm
  · obtain ⟨t, i, -, rfl⟩ := mem_testNodes.mp hm
    exact nofun

/-- The group itself, as a node. -/
def rootNode (pos : List Nat) (parents : List Str) (g : Group) : Node :=
  ⟨.group pos, parents, g.name, g.fixture⟩

theorem rootNode_mem (pos : List Nat) (parents : List Str) (g : Group) :
    g.rootNode pos parents ∈ g.nodes pos parents := by
  cases g
  exact List.mem_cons_self

/-- A node of a group is the group itself or below it. -/
theorem eq_or_encloses (hn : n ∈ g.nodes pos parents) :
    n = g.rootNode pos parents ∨ n.id ≠ .group pos ∧ NodeId.Encloses (.group pos) n.id := by
  cases g
  rcases List.mem_cons.mp hn with rfl | hn
  · exact Or.inl rfl
  · exact Or.inr ⟨ne_group_of_below hn, encloses_below hn⟩

end Positions

mutual

/-- Every node of a group stands inside the groups the group stands inside. -/
theorem nodes_parents (pos : List Nat) (parents : List Str) :
    ∀ g : Group, ∀ n ∈ g.nodes pos parents, parents <+: n.parents
  | .mk name f ts gs => by
    intro n hn
    rcases List.mem_cons.mp hn with rfl | hn
    · exact List.prefix_rfl
    rcases List.mem_append.mp hn with hn | hn
    · exact (List.prefix_append _ _).trans (nodesOf_parents pos 0 (parents ++ [name]) gs n hn)
    · obtain ⟨t, i, -, rfl⟩ := mem_testNodes.mp hn
      exact List.prefix_append _ _

theorem nodesOf_parents (pos : List Nat) (j : Nat) (parents : List Str) :
    ∀ gs : List Group, ∀ n ∈ nodesOf pos j parents gs, parents <+: n.parents
  | [] => by simp [nodesOf]
  | g :: gs => by
    intro n hn
    rcases List.mem_append.mp hn with hn | hn
    · exact nodes_parents (pos ++ [j]) parents g n hn
    · exact nodesOf_parents pos (j + 1) parents gs n hn

end

mutual

/-- **The groups around a node** give it the names on the way. -/
theorem encloses_names (pos : List Nat) (parents : List Str) :
    ∀ g : Group, ∀ m ∈ g.nodes pos parents, ∀ n ∈ g.nodes pos parents,
      m.id.Encloses n.id → m.names <+: n.parents
  | .mk name f ts gs => by
    intro m hm n hn he
    rcases List.mem_cons.mp hn with rfl | hn
    · rcases List.mem_cons.mp hm with rfl | hm
      · exact absurd rfl he.2
      · exact absurd he (NodeId.not_encloses_symm (encloses_below hm))
    rcases List.mem_cons.mp hm with rfl | hm
    · rcases List.mem_append.mp hn with hn | hn
      · exact nodesOf_parents pos 0 (parents ++ [name]) gs n hn
      · obtain ⟨t, i, -, rfl⟩ := mem_testNodes.mp hn
        exact List.prefix_rfl
    rcases List.mem_append.mp hm with hm | hm
    · rcases List.mem_append.mp hn with hn | hn
      · exact encloses_namesOf pos 0 (parents ++ [name]) gs m hm n hn he
      · obtain ⟨t, i, -, rfl⟩ := mem_testNodes.mp hn
        exact absurd he (not_encloses_testNode hm i)
    · obtain ⟨t, i, -, rfl⟩ := mem_testNodes.mp hm
      exact absurd he (NodeId.not_encloses_test _ rfl _)

theorem encloses_namesOf (pos : List Nat) (j : Nat) (parents : List Str) :
    ∀ gs : List Group, ∀ m ∈ nodesOf pos j parents gs, ∀ n ∈ nodesOf pos j parents gs,
      m.id.Encloses n.id → m.names <+: n.parents
  | [] => by simp [nodesOf]
  | g :: gs => by
    intro m hm n hn he
    rcases List.mem_append.mp hm with hm | hm
    · rcases List.mem_append.mp hn with hn | hn
      · exact encloses_names (pos ++ [j]) parents g m hm n hn he
      · exact absurd he (not_encloses_subgroups hm hn).1
    · rcases List.mem_append.mp hn with hn | hn
      · exact absurd he (not_encloses_subgroups hn hm).2
      · exact encloses_namesOf pos (j + 1) parents gs m hm n hn he

end

/-- A node below the root has groups around it. -/
theorem parents_ne_nil {g : Group} {m : Node} (hm : m ∈ g.nodes [] []) (hroot : m.id ≠ .group []) :
    m.parents ≠ [] := by
  obtain rfl | ⟨-, hbelow⟩ := eq_or_encloses hm
  · exact absurd rfl hroot
  · have hpre := encloses_names [] [] g _ (rootNode_mem [] [] g) m hm hbelow
    intro hnil
    rw [hnil] at hpre
    simp [rootNode, Node.names] at hpre

mutual

/-- Each way to a node leads through the groups around it. -/
theorem exists_enclosing (pos : List Nat) (parents : List Str) :
    ∀ g : Group, ∀ n ∈ g.nodes pos parents, ∀ ns, parents ++ [g.name] <+: ns → ns <+: n.parents →
      ∃ m ∈ g.nodes pos parents, m.names = ns ∧ m.id.Encloses n.id
  | .mk name f ts gs => by
    intro n hn ns hns hpar
    rcases List.mem_cons.mp hn with rfl | hn
    · have := (hns.trans hpar).length_le
      simp only [List.length_append, List.length_singleton] at this
      omega
    by_cases he : ns = parents ++ [name]
    · exact ⟨_, List.mem_cons_self, he.symm, encloses_below hn⟩
    have hlen : (parents ++ [name]).length < ns.length := by
      refine lt_of_le_of_ne hns.length_le fun hl => he ?_
      exact (hns.eq_of_length hl).symm
    rcases List.mem_append.mp hn with hn | hn
    · obtain ⟨m, hm, hnames, henc⟩ := exists_enclosingOf pos 0 (parents ++ [name]) gs n hn ns hlen hpar
      exact ⟨m, List.mem_cons_of_mem _ (List.mem_append_left _ hm), hnames, henc⟩
    · obtain ⟨t, i, -, rfl⟩ := mem_testNodes.mp hn
      exact absurd hpar.length_le (Nat.not_le_of_lt hlen)

theorem exists_enclosingOf (pos : List Nat) (j : Nat) (parents : List Str) :
    ∀ gs : List Group, ∀ n ∈ nodesOf pos j parents gs, ∀ ns, parents.length < ns.length →
      ns <+: n.parents → ∃ m ∈ nodesOf pos j parents gs, m.names = ns ∧ m.id.Encloses n.id
  | [] => by simp [nodesOf]
  | g :: gs => by
    intro n hn ns hlen hpar
    rcases List.mem_append.mp hn with hn | hn
    · have hns : parents ++ [g.name] <+: ns :=
        List.prefix_of_prefix_length_le (nodes_spec (pos ++ [j]) parents g n hn).2.1
          (hpar.trans (List.prefix_append _ _)) (by
            rw [List.length_append, List.length_singleton]
            exact hlen)
      obtain ⟨m, hm, h⟩ := exists_enclosing (pos ++ [j]) parents g n hn ns hns hpar
      exact ⟨m, List.mem_append_left _ hm, h⟩
    · obtain ⟨m, hm, h⟩ := exists_enclosingOf pos (j + 1) parents gs n hn ns hlen hpar
      exact ⟨m, List.mem_append_right _ hm, h⟩

end

/-! ## The names of the tests -/

/-- The names of a node below the groups `k` levels up. -/
def nameFrom (k : Nat) (n : Node) : Str := join (n.names.drop k)

theorem names_drop_eq {parents : List Str} {name : Str} {n : Node}
    (h : parents ++ [name] <+: n.names) :
    n.names.drop parents.length = name :: n.names.drop (parents.length + 1) := by
  obtain ⟨rest, hrest⟩ := h
  rw [← hrest]
  simp [List.append_assoc, List.drop_append]

/-- A test stands strictly below the group it is in. -/
theorem test_names_drop_ne_nil {pos : List Nat} {parents : List Str} {g : Group} {n : Node}
    (hn : n ∈ g.nodes pos parents) (ht : n.id.isTest) :
    n.names.drop (parents.length + 1) ≠ [] := by
  have := ((nodes_spec pos parents g n hn).2.2 ht).length_le
  simp only [List.length_append, List.length_singleton] at this
  rw [Ne, List.drop_eq_nil_iff]
  simp only [Node.names, List.length_append, List.length_singleton]
  omega

theorem isTest_testNodes (pos : List Nat) (parents : List Str) (ts : List Test) :
    (testNodes pos parents ts).filter (fun n => n.id.isTest) = testNodes pos parents ts := by
  rw [List.filter_eq_self]
  intro n hn
  obtain ⟨t, i, -, rfl⟩ := mem_testNodes.mp hn
  rfl

theorem testNodes_nameFrom (pos : List Nat) (parents : List Str) (ts : List Test) :
    (testNodes pos parents ts).map (nameFrom parents.length) = ts.map Test.name := by
  simp only [testNodes, List.map_map, Function.comp_def, nameFrom, Node.names, List.drop_left,
    join_singleton]
  rw [← Function.comp_def Test.name, ← List.map_map, List.zipIdx_map_fst]

mutual

/-- **`test_names` lists the tests**, each by its names below the group. -/
theorem testNames_eq (pos : List Nat) (parents : List Str) :
    ∀ g : Group, g.testNames =
      ((g.nodes pos parents).filter fun n => n.id.isTest).map (nameFrom (parents.length + 1))
  | .mk name f ts gs => by
    have hlen : (parents ++ [name]).length = parents.length + 1 := by simp
    rw [testNames, nodes, List.filter_cons_of_neg (by simp [NodeId.isTest]), List.filter_append,
      isTest_testNodes, List.map_append, ← hlen, ← testNamesOf_eq, testNodes_nameFrom]

theorem testNamesOf_eq (pos : List Nat) (j : Nat) (parents : List Str) :
    ∀ gs : List Group, testNamesOf gs =
      ((nodesOf pos j parents gs).filter fun n => n.id.isTest).map (nameFrom parents.length)
  | [] => rfl
  | g :: gs => by
    simp only [testNamesOf, nodesOf, List.filter_append, List.map_append]
    rw [← testNamesOf_eq pos (j + 1) parents gs, testNames_eq (pos ++ [j]) parents g]
    congr 1
    rw [List.map_map]
    refine List.map_congr_left fun n hn => ?_
    obtain ⟨hmem, ht⟩ := List.mem_filter.mp hn
    simp only [Function.comp, nameFrom]
    rw [names_drop_eq (nodes_spec _ _ g n hmem).2.1,
      join_cons g.name (test_names_drop_ne_nil hmem ht)]

end

end Group

end E2etest
