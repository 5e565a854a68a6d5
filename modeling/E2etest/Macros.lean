import E2etest.Tree

/-!
# Trees from declarations (`e2etest-macros`)

A group or a test either brings an implementation of `Fixture` of its own, or is written with
`group!` or `#[test]` and lists fixtures; the macro then generates a fixture that holds one `Arc`
for each of them and may run concurrently when all of them may (`FixtureDecl.fixture`).

`GroupDecl.group` is the tree that is registered. Its nodes are those of the declaration
(`GroupDecl.nodes_map`), and every tree is declared by something (`GroupDecl.exists_decl`).
-/

namespace E2etest

open Text

/-- The fixture of a declaration. -/
inductive FixtureDecl
  /-- A fixture written by hand. -/
  | own (f : Fixture)
  /-- A tuple of fixtures, for which a fixture of type `typeId` is generated. -/
  | listed (typeId : TypeId) (fixtures : List Fixture)
  deriving DecidableEq, Repr

namespace FixtureDecl

/-- The fixtures the declaration lists. -/
def fixtures : FixtureDecl → List Fixture
  | .own f => [f]
  | .listed _ fs => fs

/-- The `impl Fixture` of `generate_group` and `generate_test`. -/
def fixture : FixtureDecl → Fixture
  | .own f => f
  | .listed typeId fs =>
    { typeId
      testCanRunConcurrently := fs.foldr (fun f acc => f.testCanRunConcurrently && acc) true }

/-- **The generated flag** is the conjunction of the flags of the fixtures listed. -/
theorem testCanRunConcurrently_iff (d : FixtureDecl) : d.fixture.testCanRunConcurrently = true ↔
    ∀ f ∈ d.fixtures, f.testCanRunConcurrently = true := by
  cases d with
  | own f => simp [fixture, fixtures]
  | listed typeId fs =>
    simp only [fixture, fixtures]
    induction fs with
    | nil => simp
    | cons f fs ih => rw [List.foldr_cons, Bool.and_eq_true, ih, List.forall_mem_cons]

end FixtureDecl

/-- A test, as it is declared. -/
structure TestDecl where
  name : Str
  fixture : FixtureDecl
  timeout : Option Duration := none

/-- The test that is registered. -/
def TestDecl.test (d : TestDecl) : Test := ⟨d.name, d.fixture.fixture, d.timeout⟩

/-- A group, as it is declared, with the tests and groups registered in it. -/
inductive GroupDecl
  | mk (name : Str) (fixture : FixtureDecl) (tests : List TestDecl) (groups : List GroupDecl)

namespace GroupDecl

mutual

/-- The group that is registered. -/
def group : GroupDecl → Group
  | .mk name f ts gs => .mk name f.fixture (ts.map TestDecl.test) (groupsOf gs)

def groupsOf : List GroupDecl → List Group
  | [] => []
  | d :: ds => d.group :: groupsOf ds

end

/-- A node with its declared fixture. -/
abbrev DeclNode := Node × FixtureDecl

/-- The declared tests of one group. -/
def testNodes (pos : List Nat) (parents : List Str) (ts : List TestDecl) : List DeclNode :=
  ts.zipIdx.map fun t => (⟨.test pos t.2, parents, t.1.name, t.1.fixture.fixture⟩, t.1.fixture)

mutual

/-- Every node of the tree, with its declared fixture. -/
def nodes (pos : List Nat) (parents : List Str) : GroupDecl → List DeclNode
  | .mk name f ts gs =>
    (⟨.group pos, parents, name, f.fixture⟩, f) ::
      (nodesOf pos 0 (parents ++ [name]) gs ++ testNodes pos (parents ++ [name]) ts)

def nodesOf (pos : List Nat) (j : Nat) (parents : List Str) : List GroupDecl → List DeclNode
  | [] => []
  | d :: ds => d.nodes (pos ++ [j]) parents ++ nodesOf pos (j + 1) parents ds

end

theorem testNodes_map (pos : List Nat) (parents : List Str) (ts : List TestDecl) :
    (testNodes pos parents ts).map Prod.fst =
      Group.testNodes pos parents (ts.map TestDecl.test) := by
  simp only [testNodes, Group.testNodes, List.zipIdx_map, List.map_map]
  rfl

mutual

/-- **The nodes of the tree** are those of the declaration. -/
theorem nodes_map (pos : List Nat) (parents : List Str) :
    ∀ d : GroupDecl, (d.nodes pos parents).map Prod.fst = d.group.nodes pos parents
  | .mk name f ts gs => by
    unfold nodes group Group.nodes
    rw [List.map_cons, List.map_append, nodesOf_map, testNodes_map]

theorem nodesOf_map (pos : List Nat) (j : Nat) (parents : List Str) :
    ∀ ds : List GroupDecl,
      (nodesOf pos j parents ds).map Prod.fst = Group.nodesOf pos j parents (groupsOf ds)
  | [] => rfl
  | d :: ds => by
    unfold nodesOf groupsOf Group.nodesOf
    rw [List.map_append, nodes_map, nodesOf_map]

end

mutual

/-- The fixture of a node is the one its declaration generates. -/
theorem nodes_fixture (pos : List Nat) (parents : List Str) :
    ∀ d : GroupDecl, ∀ n ∈ d.nodes pos parents, n.1.fixture = n.2.fixture
  | .mk name f ts gs => by
    refine List.forall_mem_cons.mpr ⟨rfl, fun n hn => ?_⟩
    rcases List.mem_append.mp hn with hn | hn
    · exact nodesOf_fixture pos 0 _ gs n hn
    · obtain ⟨t, -, rfl⟩ := List.mem_map.mp hn
      rfl

theorem nodesOf_fixture (pos : List Nat) (j : Nat) (parents : List Str) :
    ∀ ds : List GroupDecl, ∀ n ∈ nodesOf pos j parents ds, n.1.fixture = n.2.fixture
  | [] => by simp [nodesOf]
  | d :: ds => by
    intro n hn
    rcases List.mem_append.mp hn with hn | hn
    · exact nodes_fixture (pos ++ [j]) _ d n hn
    · exact nodesOf_fixture pos (j + 1) _ ds n hn

end

mutual

/-- Every tree is declared by something. -/
theorem exists_decl : ∀ g : Group, ∃ d : GroupDecl, d.group = g
  | .mk name f ts gs => by
    obtain ⟨ds, hds⟩ := exists_declOf gs
    refine ⟨.mk name (.own f) (ts.map fun t => ⟨t.name, .own t.fixture, t.timeout⟩) ds, ?_⟩
    unfold group
    rw [hds, List.map_map]
    exact congrArg (Group.mk name f · gs) (List.map_id ts)

theorem exists_declOf : ∀ gs : List Group, ∃ ds : List GroupDecl, groupsOf ds = gs
  | [] => ⟨[], rfl⟩
  | g :: gs => by
    obtain ⟨d, rfl⟩ := exists_decl g
    obtain ⟨ds, rfl⟩ := exists_declOf gs
    exact ⟨d :: ds, rfl⟩

end

end GroupDecl

end E2etest
