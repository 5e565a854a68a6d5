import E2etest.Macros
import E2etest.Trees.Unfold

/-!
# Registration (`e2etest-macros`)

`group!` leaves two slices in its module, for the tests and for the subgroups of the group. `#[test]`
and a `parent` put a function into the slice of a group, which they name by the path of the group with
its last segment renamed (`renameLast`). The linker fills the slices, in any order, and the group reads
them when it is asked for its tests and groups.

`Program` is what the macros leave, all over the program; no module has two items of one name, which
the compiler sees to. `Program.tree` follows the slices down from a group, `Program.place` climbs up
from a test. `Program.written` is the hierarchy that the paths name as they are written.
-/

namespace E2etest

open Text Relation Trees

/-! ## What the macros write -/

/-- `convert_case::ccase!`. -/
structure Cases where
  constant : Str → Str
  pascal : Str → Str
  snake : Str → Str

section Names

variable (c : Cases) (name : Str)

/-- `group_groups_name`. -/
def groupGroupsName : Str := "_E2ETEST_".toList ++ c.constant name ++ "_GROUPS".toList

/-- `group_tests_name`. -/
def groupTestsName : Str := "_E2ETEST_".toList ++ c.constant name ++ "_TESTS".toList

/-- `group_fixture_name`. -/
def groupFixtureName : Str := "_E2etestGroupFixture".toList ++ c.pascal name

/-- `group_type_name`. -/
def groupTypeName : Str := "_E2etestGroup".toList ++ c.pascal name

/-- `test_fixture_name`. -/
def testFixtureName : Str := "_E2etestTestFixture".toList ++ c.pascal name

/-- `test_type_name`. -/
def testTypeName : Str := "_E2etestTest".toList ++ c.pascal name

/-- `test_register_name`. -/
def testRegisterName : Str := "_e2etest_register_".toList ++ c.snake name

end Names

/-- The segments of a `syn::Path`. -/
abbrev SynPath := List Str

/-- A `syn::TypePath`, as it is written. -/
abbrev TypePath := Str

/-- Another name for the last segment. -/
def renameLast (error : Str) (rename : Str → Str) (path : SynPath) : Except Str SynPath :=
  match path.getLast? with
  | none => .error error
  | some last => .ok (path.dropLast ++ [rename last])

/-- The parameters of `group!`, the name in lower case. -/
structure GroupParams where
  name : Str
  fixtures : List Str
  parent : Option SynPath
  deriving DecidableEq, Repr

/-- What `group!` leaves in its module: the items by their names, and the slice that the function of
the group is put into. -/
structure GroupCode where
  groupTests : Str
  groupGroups : Str
  groupFixture : Str
  groupType : Str
  name : Str
  fixtures : List TypePath
  registerGroup : Option SynPath
  deriving DecidableEq, Repr

/-- The items of the code. -/
def GroupCode.items (g : GroupCode) : List Str :=
  [g.groupTests, g.groupGroups, g.groupFixture, g.groupType, g.name]

/-- `register_group`: the slice that the function of the group is put into. -/
def registerGroup (c : Cases) (parent : Option SynPath) : Except Str (Option SynPath) :=
  match parent with
  | some parent => (renameLast "Expected parent path to have at least one segment".toList
      (groupGroupsName c) parent).map some
  | none => .ok none

/-- `generate_group`. -/
def generateGroup (c : Cases) (params : GroupParams) : Except Str GroupCode := do
  let registerGroup ← registerGroup c params.parent
  return {
    groupTests := groupTestsName c params.name
    groupGroups := groupGroupsName c params.name
    groupFixture := groupFixtureName c params.name
    groupType := groupTypeName c params.name
    name := params.name
    fixtures := params.fixtures
    registerGroup }

/-- The parameters of `#[test]`. -/
structure TestParams where
  group : SynPath
  timeout : Option Duration
  deriving DecidableEq, Repr

/-- A generic argument of a type, as far as `take_fixtures` looks at it. -/
inductive GenericArgument
  | typePath (path : TypePath)
  | other
  deriving DecidableEq, Repr

/-- The arguments of a segment. -/
inductive PathArguments
  | none
  | angleBracketed (args : List GenericArgument)
  | parenthesized
  deriving DecidableEq, Repr

/-- An argument of a function: typed with a path, with a type that is none, or `self`. -/
inductive FnArg
  | typed (segments : List (Str × PathArguments))
  | otherType
  | receiver
  deriving DecidableEq, Repr

/-- The function below `#[test]`. -/
structure ItemFn where
  ident : Str
  inputs : List FnArg
  isAsync : Bool
  returnsDefault : Bool
  deriving DecidableEq, Repr

/-- The fixture of one argument. -/
def takeFixture : FnArg → Except Str TypePath
  | .typed ((ident, .angleBracketed (.typePath fixture :: _)) :: _) =>
    if ident = "Arc".toList then .ok fixture
    else .error "Expected arguments of type Arc<Fixture>".toList
  | _ => .error "Expected arguments of type Arc<Fixture>".toList

/-- `take_fixtures`. -/
def takeFixtures (run : ItemFn) : Except Str (List TypePath) := do
  let fixtures ← run.inputs.mapM takeFixture
  if fixtures = [] then
    .error ("Expected the test function to have at least one argument of type " ++
      "Arc<Fixture>").toList
  else return fixtures

/-- What `#[test]` leaves in its module, and the slice that its register function is put into. -/
structure TestCode where
  testFixture : Str
  testType : Str
  testRegister : Str
  name : Str
  fixtures : List TypePath
  timeout : Option Duration
  groupTests : SynPath
  deriving DecidableEq, Repr

/-- The items of the code. -/
def TestCode.items (t : TestCode) : List Str := [t.testFixture, t.testType, t.testRegister, t.name]

/-- `generate_test`. -/
def generateTest (c : Cases) (params : TestParams) (run : ItemFn) : Except Str TestCode := do
  let groupTests ← renameLast "Expected group path to have at least one segment".toList
    (groupTestsName c) params.group
  if !run.isAsync then .error "Expected the test function to be async".toList
  else if !run.returnsDefault then .error "Expected the test function to return ()".toList
  else do
    let fixtures ← takeFixtures run
    return {
      testFixture := testFixtureName c run.ident
      testType := testTypeName c run.ident
      testRegister := testRegisterName c run.ident
      name := run.ident
      fixtures
      timeout := params.timeout
      groupTests }

/-! ## The program -/

/-- A module, by its path from the root of its crate. -/
abbrev Module := List Str

/-- An item of a module. -/
abbrev ItemPath := Module × Str

/-- A `group!` in a module. -/
structure GroupItem (c : Cases) where
  home : Module
  params : GroupParams
  code : GroupCode
  generated : generateGroup c params = .ok code
  deriving DecidableEq

/-- A `#[test]` in a module. -/
structure TestItem (c : Cases) where
  home : Module
  params : TestParams
  run : ItemFn
  code : TestCode
  generated : generateTest c params run = .ok code
  deriving DecidableEq

/-- What the compiler makes of the paths in a module. -/
structure Scope where
  /-- The item a path names. -/
  item : Module → SynPath → ItemPath
  /-- The fixture a type is. -/
  fixture : Module → TypePath → Fixture
  typeId : ItemPath → TypeId

section Items

variable {c : Cases}

def GroupItem.items (g : GroupItem c) : List ItemPath := g.code.items.map fun name => (g.home, name)

def TestItem.items (t : TestItem c) : List ItemPath := t.code.items.map fun name => (t.home, name)

/-- The slice of the subgroups. -/
def GroupItem.groupsSlice (g : GroupItem c) : ItemPath := (g.home, g.code.groupGroups)

/-- The slice of the tests. -/
def GroupItem.testsSlice (g : GroupItem c) : ItemPath := (g.home, g.code.groupTests)

/-- The slice that the group is put into. -/
def GroupItem.registeredIn (s : Scope) (g : GroupItem c) : Option ItemPath :=
  g.code.registerGroup.map (s.item g.home)

/-- The slice that the test is put into. -/
def TestItem.registeredIn (s : Scope) (t : TestItem c) : ItemPath := s.item t.home t.code.groupTests

/-- The fixture that `group!` generates. -/
def GroupItem.fixture (s : Scope) (g : GroupItem c) : Fixture :=
  (FixtureDecl.listed (s.typeId (g.home, g.code.groupFixture))
    (g.code.fixtures.map (s.fixture g.home))).fixture

/-- The test that `#[test]` generates. -/
def TestItem.test (s : Scope) (t : TestItem c) : Test where
  name := t.code.name
  fixture := (FixtureDecl.listed (s.typeId (t.home, t.code.testFixture))
    (t.code.fixtures.map (s.fixture t.home))).fixture
  timeout := t.code.timeout

end Items

/-- What the macros leave, in the order it is linked. -/
structure Program (c : Cases) where
  groups : List (GroupItem c)
  tests : List (TestItem c)
  /-- No module has two items of one name. -/
  distinct : (groups.flatMap GroupItem.items ++ tests.flatMap TestItem.items).Nodup

namespace Program

variable {c : Cases} (p : Program c) (s : Scope)

/-- `_GROUPS`, as it is linked. -/
def subgroups (g : GroupItem c) : List (GroupItem c) :=
  p.groups.filter fun h => decide (h.registeredIn s = some g.groupsSlice)

/-- `_TESTS`, as it is linked. -/
def testsOf (g : GroupItem c) : List (TestItem c) :=
  p.tests.filter fun t => decide (t.registeredIn s = g.testsSlice)

/-- What `Group::groups` and `Group::tests` give, from a group on down. -/
def tree : Nat → GroupItem c → Option Group :=
  unfold (p.subgroups s) fun g gs =>
    .mk g.code.name (g.fixture s) ((p.testsOf s g).map (TestItem.test s)) gs

/-- The group whose slice the group is put into. -/
def parent (g : GroupItem c) : Option (GroupItem c) :=
  p.groups.find? fun h => decide (g.registeredIn s = some h.groupsSlice)

/-- The group whose slice the test is put into. -/
def groupOf (t : TestItem c) : Option (GroupItem c) :=
  p.groups.find? fun h => decide (t.registeredIn s = h.testsSlice)

/-- The place of a test below a group: the names of the groups from there to the one it is in. -/
def place (root : GroupItem c) (t : TestItem c) : Option (List Str × Test) :=
  (p.groupOf s t).bind fun g => (climb (p.parent s) root p.groups.length g).map fun above =>
    ((above ++ [g]).map fun h => h.code.name, t.test s)

/-- The place of a group below a group, and what it is there. -/
def spot (root g : GroupItem c) : Option (List Str × Str × Fixture) :=
  (climb (p.parent s) root p.groups.length g).map fun above =>
    (above.map fun h => h.code.name, g.code.name, g.fixture s)

end Program

/-! ## The nodes of a tree -/

mutual

/-- The tests of a tree, each with the names of the groups it is in. -/
def Group.placed : Group → List (List Str × Test)
  | .mk n _ ts gs => (placedOf gs ++ ts.map (Prod.mk [])).map (Prod.map (n :: ·) id)

def Group.placedOf : List Group → List (List Str × Test)
  | [] => []
  | g :: gs => g.placed ++ placedOf gs

end

mutual

/-- The groups of a tree, each with the names of those it is in, its own name and its fixture. -/
def Group.nested : Group → List (List Str × Str × Fixture)
  | .mk n f _ gs => (nestedOf gs).map (Prod.map (n :: ·) id) ++ [([], n, f)]

def Group.nestedOf : List Group → List (List Str × Str × Fixture)
  | [] => []
  | g :: gs => g.nested ++ nestedOf gs

end

/-! ## What is written -/

section Written

variable {c : Cases}

/-- The function of a group, which the others name it by. -/
def GroupItem.function (g : GroupItem c) : ItemPath := (g.home, g.params.name)

/-- The group that `parent` names. -/
def GroupItem.parentItem (s : Scope) (g : GroupItem c) : Option ItemPath :=
  g.params.parent.map (s.item g.home)

/-- The group that `group` names. -/
def TestItem.groupItem (s : Scope) (t : TestItem c) : ItemPath := s.item t.home t.params.group

/-- The groups that name a group their parent. -/
def Program.childrenOf (p : Program c) (s : Scope) (g : GroupItem c) : List (GroupItem c) :=
  p.groups.filter fun h => decide (h.parentItem s = some g.function)

/-- The hierarchy as it is written. -/
def Program.written (p : Program c) (s : Scope) : Nat → GroupItem c → Option Group :=
  unfold (p.childrenOf s) fun g gs => .mk g.params.name (g.fixture s)
    ((p.tests.filter fun t => decide (t.groupItem s = g.function)).map (TestItem.test s)) gs

/-- The compiler finds a group by every path that is written for one, and its slices beside it. -/
structure Scope.Finds (s : Scope) (p : Program c) : Prop where
  parents : ∀ g ∈ p.groups, ∀ path ∈ g.params.parent, ∃ h ∈ p.groups, s.item g.home path = h.function
  groups : ∀ t ∈ p.tests, ∃ g ∈ p.groups, t.groupItem s = g.function
  beside : ∀ home path, ∀ g ∈ p.groups, s.item home path = g.function → ∃ init,
    path = init ++ [g.params.name] ∧ s.item home (init ++ [g.code.groupGroups]) = g.groupsSlice ∧
      s.item home (init ++ [g.code.groupTests]) = g.testsSlice

end Written

/-! ## A program -/

/-- The cases of names that are one word. -/
def oneWord : Cases where
  constant := List.map Char.toUpper
  pascal
    | [] => []
    | ch :: s => ch.toUpper :: s
  snake := id

/-- A module where every path is the name of an item in it. -/
def flatScope (fixture : TypePath → Fixture) (typeId : Str → TypeId) : Scope where
  item home path := (home, path.getLast?.getD [])
  fixture _ := fixture
  typeId item := typeId item.2

def rootItem : GroupItem oneWord := ⟨[], ⟨['r'], [], none⟩, _, rfl⟩

def partItem : GroupItem oneWord := ⟨[], ⟨['p'], [['F']], some [['r']]⟩, _, rfl⟩

def testItem (name : Char) : TestItem oneWord :=
  ⟨[], ⟨[['p']], none⟩, ⟨[name],
    [.typed [("Arc".toList, .angleBracketed [.typePath ['F']])]], true, true⟩, _, rfl⟩

/-- A root, a group in it, and two tests in that. -/
def smallProgram : Program oneWord := ⟨[rootItem, partItem], [testItem 'a', testItem 'b'], by decide⟩

/-- The same, linked the other way round. -/
def smallProgram' : Program oneWord :=
  ⟨[partItem, rootItem], [testItem 'b', testItem 'a'], by decide⟩

def smallScope : Scope :=
  flatScope (fun _ => { typeId := 1 }) fun name => name.foldl (fun n ch => n + ch.toNat) 0

example : (smallProgram.tree smallScope 2 rootItem).map Group.testNames =
    some [['p'] ++ sep ++ ['a'], ['p'] ++ sep ++ ['b']] := by decide

end E2etest
