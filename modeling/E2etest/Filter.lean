import E2etest.Tree
import Mathlib.Data.Char
import Mathlib.Data.Finset.Insert
import Mathlib.Data.List.AList

/-!
# Filters (`filter.rs`)

`Filter.new` turns the filter strings into a map from group paths to test names and a set of group
paths; `considerGroup` and `considerTest` look them up. An empty map and an empty set stand for
"no restriction", and so does an empty set of names in the map.
-/

namespace E2etest

open Text

/-- `FilterMatcher`. -/
inductive FilterMatcher
  | any
  | partially (pat : Str)
  | exact (pat : Str)
  deriving DecidableEq, Repr

namespace FilterMatcher

/-- `strip_prefix('"').and_then(|filter| filter.strip_suffix('"'))`. -/
def unquote : Str → Option Str
  | '"' :: s => if s.getLast? = some '"' then some s.dropLast else none
  | _ => none

/-- `FilterMatcher::new`. -/
def new (filter : Str) : FilterMatcher :=
  if filter = [] then .any
  else match unquote filter with
    | some pat => .exact pat
    | none => .partially filter

/-- `FilterMatcher::matches`. -/
def isMatch (m : FilterMatcher) (candidate : Str) : Bool :=
  match m with
  | .any => true
  | .partially pat => contains candidate pat
  | .exact pat => candidate == pat

@[simp] theorem isMatch_any (s : Str) : any.isMatch s = true := rfl

end FilterMatcher

/-- `Filter`: by group path, the names of the tests to run there (none: all of them), and the
paths of the groups to enter. -/
structure Filter where
  tests : AList fun _ : Str => Finset Str
  groups : Finset Str

namespace Filter

/-- `Filter::empty`. -/
def empty : Filter := ⟨∅, ∅⟩

/-- `update_group_set`: the paths on the way to `groupName` below `parentName`. -/
def updateGroupSet (parentName groupName : Str) (groups : Finset Str) : Finset Str :=
  ((split groupName).foldl
    (fun (acc, groups) name =>
      let acc := acc ++ sep ++ name
      (acc, insert acc groups))
    (parentName, groups)).2

/-- `filter_map.entry(parent_group_name).or_default(); update_group_set(group_name);`. -/
def selectGroup (parentName groupName : Str) (f : Filter) : Filter :=
  let key := parentName ++ sep ++ groupName
  { tests := f.tests.insert key ((f.tests.lookup key).getD ∅)
    groups := updateGroupSet parentName groupName f.groups }

/-- `filter_map.entry(parent_group_name).or_default().insert(test_name.to_string());
update_group_set(group_name);`. -/
def selectTest (parentName groupName testName : Str) (f : Filter) : Filter :=
  let key := parentName ++ sep ++ groupName
  { tests := f.tests.insert key (insert testName ((f.tests.lookup key).getD ∅))
    groups := updateGroupSet parentName groupName f.groups }

/-- The body of `for filter in filters`, over the tests of subgroups. -/
def addFilter (parentName : Str) (tests : List (Str × Str)) (f : Filter) (filter : Str) : Filter :=
  match rsplitOnce filter with
  | some (groupPart, testPart) =>
    let groupFilter := FilterMatcher.new groupPart
    let testFilter := FilterMatcher.new testPart
    tests.foldl (fun f (groupName, testName) =>
      if !groupFilter.isMatch groupName then f
      else if testFilter = .any then f.selectGroup parentName groupName
      else if testFilter.isMatch testName then f.selectTest parentName groupName testName
      else f) f
  | none =>
    let matcher := FilterMatcher.new filter
    tests.foldl (fun f (groupName, testName) =>
      if matcher.isMatch groupName then f.selectGroup parentName groupName
      else if matcher.isMatch testName then f.selectTest parentName groupName testName
      else f) f

/-- `Filter::new`. -/
def new (filters : List Str) (group : Group) : Filter :=
  if filters = [] then empty
  else filters.foldl (addFilter group.name (group.testNames.filterMap rsplitOnce)) empty

/-- `Filter::consider_group`. -/
def considerGroup (f : Filter) (groupNames : List Str) (groupName : Str) : Bool :=
  decide (f.groups = ∅) || decide (join (groupNames ++ [groupName]) ∈ f.groups)

/-- `Filter::consider_test`. -/
def considerTest (f : Filter) (groupNames : List Str) (testName : Str) : Bool :=
  if f.tests.keys = [] then true
  else match f.tests.lookup (join groupNames) with
    | some tests => decide (tests = ∅) || decide (testName ∈ tests)
    | none => false

end Filter

end E2etest
