import E2etest.Filter
import E2etest.Task

/-!
# Running groups and tests (`run.rs`, `group.rs`, `test.rs`)

`RunContext`, `run_test`, `run_group`, and the selection `run` makes before it starts the root
group. A position in the tree is passed along with each node, so that operations can name it.
-/

namespace E2etest

open Async Text

/-- `DEFAULT_TIMEOUT`, in milliseconds. -/
def DEFAULT_TIMEOUT : Duration := 60000

/-- `RunContext`, less the shared state. -/
structure RunContext where
  filter : Filter
  defaultTimeout : Duration
  concurrency : Nat
  concurrencyEnabled : Bool

namespace RunContext

/-- `RunContext::new`. -/
def new : RunContext := ⟨.empty, DEFAULT_TIMEOUT, 1, true⟩

/-- `RunContext::with_filter`. -/
def withFilter (ctx : RunContext) (filter : Filter) : RunContext := { ctx with filter }

/-- `RunContext::with_default_timeout`. -/
def withDefaultTimeout (ctx : RunContext) (defaultTimeout : Duration) : RunContext :=
  { ctx with defaultTimeout }

/-- `RunContext::with_concurrency`. -/
def withConcurrency (ctx : RunContext) (concurrency : Nat) : RunContext :=
  { ctx with concurrency := if concurrency > 0 then concurrency else 1 }

/-- `RunContext::update_concurrency_enabled`. -/
def updateConcurrencyEnabled (ctx : RunContext) (enabledForNextLevel : Bool) : RunContext :=
  { ctx with concurrencyEnabled := ctx.concurrencyEnabled && enabledForNextLevel }

/-- `RunContext::is_concurrency_enabled`. -/
def isConcurrencyEnabled (ctx : RunContext) (enabledForNextLevel : Bool) : Bool :=
  ctx.concurrencyEnabled && enabledForNextLevel

end RunContext

/-- `RunTest::run_test`. -/
def runTest (n : NodeId) (groupName : Str) (ctx : RunContext) (t : Test) : Future Unit := do
  let name := groupName ++ sep ++ t.name
  await (.enter n)
  let fixture ← task.setup n name .test t.fixture.typeId
    (t.fixture.timeoutSetup.getD ctx.defaultTimeout)
  match fixture with
  | .ok (some fixture) => do
    task.test n name fixture (t.timeout.getD ctx.defaultTimeout)
    await (.drop n fixture)
    task.teardown n name (t.fixture.timeoutTeardown.getD ctx.defaultTimeout)
  | .ok none | .error () =>
    task.teardown n name (t.fixture.timeoutTeardown.getD ctx.defaultTimeout)

/-- The tests of a group that the filter lets through and that may (`concurrently`), or may not,
run concurrently, with their numbers. -/
def phase (parentNames : List Str) (ctx : RunContext) (concurrently : Bool) (ts : List Test) :
    List (Test × Nat) :=
  (ts.zipIdx.filter fun t => ctx.filter.considerTest parentNames t.1.name).filter
    fun t => ctx.isConcurrencyEnabled t.1.canRunConcurrently == concurrently

mutual

/-- `RunGroup::run_group`. -/
def runGroup (pos : List Nat) (parentNames : List Str) (ctx : RunContext) : Group → Future Unit
  | .mk name f ts gs => do
    await (.enter (.group pos))
    let parentNames := parentNames ++ [name]
    let groupName := join parentNames
    let fixture ← task.setup (.group pos) groupName .group f.typeId
      (f.timeoutSetup.getD ctx.defaultTimeout)
    match fixture with
    | .ok (some fixture) => do
      let ctx := ctx.updateConcurrencyEnabled f.testCanRunConcurrently
      runGroups pos 0 parentNames ctx gs
      Prog.forEachConcurrent ctx.concurrency ((phase parentNames ctx true ts).map fun t =>
        runTest (.test pos t.2) groupName ctx t.1)
      Prog.forEachSeq ((phase parentNames ctx false ts).map fun t =>
        runTest (.test pos t.2) groupName ctx t.1)
      await (.drop (.group pos) fixture)
      task.teardown (.group pos) groupName (f.timeoutTeardown.getD ctx.defaultTimeout)
    | .ok none | .error () =>
      task.teardown (.group pos) groupName (f.timeoutTeardown.getD ctx.defaultTimeout)

/-- The loop over the subgroups, from number `j` on. -/
def runGroups (pos : List Nat) (j : Nat) (parentNames : List Str) (ctx : RunContext) :
    List Group → Future Unit
  | [] => return ()
  | g :: gs => do
    if ctx.filter.considerGroup parentNames g.name then
      runGroup (pos ++ [j]) parentNames ctx g
    runGroups pos (j + 1) parentNames ctx gs

end

/-- One name of the loop `run` starts with: the test is recorded as defined, and as included if the
filter lets it through. The flag is `empty`; `none` is a failed assertion. -/
def selectTest (filter : Filter) (groupName : Str) (acc : Statistics × Bool) (name : Str) :
    Option (Statistics × Bool) := do
  let (statistics, empty) := acc
  let statistics ← statistics.record (groupName ++ sep ++ name) .testDefined
  let parts := split name
  if filter.considerTest (groupName :: parts.dropLast) (parts.getLast?.getD []) then
    let statistics ← statistics.record (groupName ++ sep ++ name) .testIncluded
    return (statistics, false)
  return (statistics, empty)

/-- The loop `run` starts with. -/
def selectTests (filter : Filter) (group : Group) : Option (Statistics × Bool) :=
  group.testNames.foldlM (selectTest filter group.name) (.new, true)

/-- `Config`. -/
structure Config where
  permanentFixtures : List TypeId := []
  filters : List Str := []
  defaultTimeout : Duration := DEFAULT_TIMEOUT
  concurrency : Nat := 1

/-- The context `run` starts the root group with. -/
def Config.context (config : Config) (group : Group) : RunContext :=
  (((RunContext.new.withFilter (.new config.filters group)).withDefaultTimeout
    config.defaultTimeout).withConcurrency config.concurrency)

end E2etest
