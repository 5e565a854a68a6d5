import E2etest.Async.Prog
import E2etest.Fixtures
import E2etest.Statistics

/-!
# Tasks (`task.rs`)

The operations the runner awaits, and `task::setup`, `task::teardown`, `task::test` and
`task::single` over them. Every operation names the node it is done for; `enter` marks the span of
a call of `run_test` or `run_group`.
-/

namespace E2etest

open Async Text

/-- A future handed to `tokio::spawn`: `Fixtures::setup`, `Test::run` on a clone of the test's
fixture, or `Fixtures::teardown`. -/
inductive Job
  | setup (f : TypeId)
  | test (fixture : Arc)
  | teardown
  deriving DecidableEq, Repr

/-- What the future returns. -/
abbrev Job.Output : Job → Type
  | .setup _ => Option Arc
  | .test _ => Unit
  | .teardown => Unit

/-- The operations of the runner. -/
inductive Op
  /-- Enter the span of the node. -/
  | enter (n : NodeId)
  /-- `ctx.statistics.record(name, event)`. -/
  | record (n : NodeId) (name : Str) (event : Event)
  /-- `tokio::spawn(time::timeout(timeout, job).await.expect("timed out"))`. -/
  | spawn (n : NodeId) (job : Job) (timeout : Duration)
  /-- Await the task; an error is its panic. -/
  | join (n : NodeId) (job : Job)
  /-- `error!("failed: {err}\n{backtrace}")`. -/
  | report (n : NodeId)
  /-- `drop(fixture)`. -/
  | drop (n : NodeId) (fixture : Arc)
  deriving DecidableEq, Repr

/-- What an operation answers. -/
abbrev Op.Result : Op → Type
  | .join _ job => Except Unit job.Output
  | .enter _ | .record _ _ _ | .spawn _ _ _ | .report _ | .drop _ _ => Unit

theorem Op.nonempty_result : ∀ op : Op, Nonempty op.Result
  | .join _ _ => ⟨.error ()⟩
  | .enter _ | .record _ _ _ | .spawn _ _ _ | .report _ | .drop _ _ => ⟨()⟩

/-- The node an operation is done for. -/
def Op.node : Op → NodeId
  | .enter n | .record n _ _ | .spawn n _ _ | .join n _ | .report n | .drop n _ => n

/-- The asynchronous functions of the runner. -/
abbrev Future (α : Type) := Prog Op Op.Result α

/-- An operation with its answer. -/
abbrev OpCall := Call Op Op.Result

/-- Await one operation. -/
abbrev await (op : Op) : Future op.Result := Prog.await op

namespace task

/-- `task::single`. -/
def single (n : NodeId) (job : Job) (timeout : Duration) : Future (Except Unit job.Output) := do
  await (.spawn n job timeout)
  let result : Except Unit job.Output ← await (.join n job)
  match result with
  | .error err => do
    await (.report n)
    return .error err
  | .ok t => return .ok t

/-- `task::setup`. -/
def setup (n : NodeId) (name : Str) (task : Task) (f : TypeId) (timeout : Duration) :
    Future (Except Unit (Option Arc)) := do
  await (.record n name .setupLaunched)
  let result ← single n (.setup f) timeout
  match result with
  | .ok (some _) => await (.record n name .setupPassed)
  | .ok none => await (.record n name (.setupSkipped task))
  | .error _ => await (.record n name (.setupFailed task))
  return result

/-- `task::teardown`. -/
def teardown (n : NodeId) (name : Str) (timeout : Duration) : Future Unit := do
  await (.record n name .teardownLaunched)
  let result ← single n .teardown timeout
  match result with
  | .ok _ => await (.record n name .teardownPassed)
  | .error _ => await (.record n name .teardownFailed)

/-- `task::test`. -/
def test (n : NodeId) (name : Str) (fixture : Arc) (timeout : Duration) : Future Unit := do
  await (.record n name .testLaunched)
  let result ← single n (.test fixture) timeout
  match result with
  | .ok _ => await (.record n name .testPassed)
  | .error _ => await (.record n name .testFailed)

end task

end E2etest
