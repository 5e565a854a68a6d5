import E2etest.Text.Path
import Mathlib.Data.Char
import Mathlib.Data.Finset.Sort
import Mathlib.Data.List.Destutter
import Mathlib.Data.List.Lex
import Mathlib.Data.List.Sort

/-!
# Statistics (`statistics.rs`)

The event log of a run. `record` is the only writer; an assertion that fails there is `none`.
The counters and the name lists are read off `included` and `events`. A skip or a setup failure
of a group is recorded once, under the group's path, and counted by expanding that path to the
included tests below it (`iterIncluded`).
-/

namespace E2etest

open Text

/-- `Task`: whose setup was skipped or failed. -/
inductive Task
  | group
  | test
  deriving DecidableEq, Repr

/-- `Event`. -/
inductive Event
  | setupLaunched
  | setupSkipped (task : Task)
  | setupPassed
  | setupFailed (task : Task)
  | teardownLaunched
  | teardownPassed
  | teardownFailed
  | testDefined
  | testIncluded
  | testLaunched
  | testPassed
  | testFailed
  deriving DecidableEq, Repr

/-- `EventEntry`. -/
structure EventEntry where
  name : Str
  event : Event
  deriving DecidableEq, Repr

/-- `EventEntry::is_failed`. -/
def EventEntry.isFailed (e : EventEntry) : Bool :=
  match e.event with
  | .setupFailed _ | .testFailed | .teardownFailed => true
  | _ => false

/-- `statistics::Inner`. -/
structure Statistics where
  defined : Finset Str
  included : Finset Str
  events : List EventEntry

namespace Statistics

/-- `Statistics::new`. -/
def new : Statistics := ⟨∅, ∅, []⟩

/-- `Inner::iter_included`. -/
def iterIncluded (s : Statistics) (name : Str) : Finset Str :=
  s.included.filter fun included => included = name ∨ startsWith included (name ++ sep)

/-- `Statistics::record`; `none` when an assertion fails. -/
def record (s : Statistics) (name : Str) (event : Event) : Option Statistics :=
  match event with
  | .testDefined => some { s with defined := insert name s.defined }
  | .testIncluded =>
    if name ∈ s.defined then some { s with included := insert name s.included } else none
  | .testLaunched | .testPassed | .testFailed =>
    if name ∈ s.included then some { s with events := s.events ++ [⟨name, event⟩] } else none
  | _ =>
    if s.iterIncluded name ≠ ∅ then some { s with events := s.events ++ [⟨name, event⟩] } else none

/-- `Statistics::is_success`. -/
def isSuccess (s : Statistics) : Bool :=
  decide (s.included ≠ ∅) && !s.events.any EventEntry.isFailed

/-- `Statistics::tests_defined`. -/
def testsDefined (s : Statistics) : Nat := s.defined.card

/-- `Statistics::tests_included`. -/
def testsIncluded (s : Statistics) : Nat := s.included.card

/-- The entries of one kind. -/
def entries (s : Statistics) (p : Event → Bool) : List EventEntry := s.events.filter fun e => p e.event

/-- `Statistics::tests_launched`. -/
def testsLaunched (s : Statistics) : Nat := (s.entries (· == .testLaunched)).length

/-- `Statistics::tests_passed`. -/
def testsPassed (s : Statistics) : Nat := (s.entries (· == .testPassed)).length

/-- `Statistics::tests_failed`. -/
def testsFailed (s : Statistics) : Nat := (s.entries (· == .testFailed)).length

/-- The two counters below add the direct entries of tests and the included tests below the
entries of groups. -/
def directAndBelow (s : Statistics) (event : Task → Event) : Nat :=
  (s.entries (· == event .test)).length +
    (s.entries (· == event .group)).foldl (fun acc e => (s.iterIncluded e.name).card + acc) 0

/-- `Statistics::tests_skipped`. -/
def testsSkipped (s : Statistics) : Nat := s.directAndBelow .setupSkipped

/-- `Statistics::tests_skipped_by_fixture_err`. -/
def testsSkippedByFixtureErr (s : Statistics) : Nat := s.directAndBelow .setupFailed

/-- `Statistics::setups_launched`. -/
def setupsLaunched (s : Statistics) : Nat := (s.entries (· == .setupLaunched)).length

/-- `Statistics::setups_passed`. -/
def setupsPassed (s : Statistics) : Nat := (s.entries (· == .setupPassed)).length

/-- `Statistics::setups_skipped`. -/
def setupsSkipped (s : Statistics) : Nat :=
  (s.entries fun e => match e with | .setupSkipped _ => true | _ => false).length

/-- `Statistics::setups_failed`. -/
def setupsFailed (s : Statistics) : Nat :=
  (s.entries fun e => match e with | .setupFailed _ => true | _ => false).length

/-- `Statistics::teardowns_launched`. -/
def teardownsLaunched (s : Statistics) : Nat := (s.entries (· == .teardownLaunched)).length

/-- `Statistics::teardowns_passed`. -/
def teardownsPassed (s : Statistics) : Nat := (s.entries (· == .teardownPassed)).length

/-- `Statistics::teardowns_failed`. -/
def teardownsFailed (s : Statistics) : Nat := (s.entries (· == .teardownFailed)).length

/-- `names.sort(); names.dedup();`, the tail of every name list. -/
def sortDedup (names : List Str) : List Str :=
  (names.insertionSort (· ≤ ·)).destutter (· ≠ ·)

/-- `Statistics::tests_passed_names`. -/
def testsPassedNames (s : Statistics) : List Str :=
  sortDedup ((s.entries (· == .testPassed)).map EventEntry.name)

/-- What `iter_included` yields, in order. -/
def includedBelow (s : Statistics) (name : Str) : List Str := (s.iterIncluded name).sort (· ≤ ·)

/-- The two name lists below chain the direct entries of tests and the included tests below the
entries of groups. -/
def directAndBelowNames (s : Statistics) (event : Task → Event) : List Str :=
  (s.entries (· == event .test)).map EventEntry.name ++
    (s.entries (· == event .group)).flatMap fun e => s.includedBelow e.name

/-- `Statistics::tests_skipped_names`. -/
def testsSkippedNames (s : Statistics) : List Str :=
  sortDedup (s.directAndBelowNames .setupSkipped)

/-- `Statistics::tests_skipped_by_fixture_err_names`. -/
def testsSkippedByFixtureErrNames (s : Statistics) : List Str :=
  sortDedup (s.directAndBelowNames .setupFailed)

/-- `Statistics::failed_names`. -/
def failedNames (s : Statistics) : List Str :=
  sortDedup ((s.events.filter EventEntry.isFailed).map EventEntry.name)

end Statistics

end E2etest
