import E2etest.Run

/-!
# The state the tasks share

`State` is what outlives an `await`: the statistics, the fixture manager behind its lock, the
spawned tasks, the backtrace the panic hook wrote last. `State.call` is the effect of an operation
of the runner, `State.act` one step of a spawned task:

* a setup takes the lock and runs to its end (`lockSetup`, `setup`): nobody sees the maps while it
  holds the lock. `Inner::teardown` holds the lock too, but the counts it reads change while it
  runs, so it is one step for each visit of its loop.
* the body of a test clones the `Arc`s it can get at (`clone`) and ends (`testEnd`); with it go the
  `Arc`s it holds. A body that leaves an `Arc` behind, in a task of its own or a static, is not in
  the model.
* a visit of the sweep takes a fixture out of the cache if nothing else points to it (`visit`),
  takes it out of its `Arc` and starts its teardown (`unwrap`), and waits for that to end
  (`teardownEnd`). When the pass is over, another one follows if this one found something
  (`nextPass`), otherwise the sweep ends (`sweepEnd`). A pass meets every key that is in the map
  when it starts, in any order.
* a timeout strikes at an `await`: on the lock while another task holds it (`cancelSetup`,
  `cancelTeardown`), in a user's setup (`Script.abort`) or teardown or in the body of a test (an
  error in `teardownEnd`, `testEnd`). A panic of user code ends the task in the same places.

`none` means that the step cannot be taken.
-/

namespace E2etest

open Async Text

/-- What a spawned task is doing. -/
inductive TaskState
  /-- Waiting for the lock, to set up `f`. -/
  | setup (f : TypeId)
  /-- In `Inner::setup`. -/
  | setupLocked (f : TypeId)
  | setupDone (r : Except Unit (Option Arc))
  /-- In the body of the test. -/
  | test
  | testDone (r : Except Unit Unit)
  /-- Waiting for the lock, to sweep. -/
  | teardown
  /-- In a pass of `Inner::teardown`, with the keys it has not met yet and `found_any`. -/
  | sweep (pending : List TypeId) (foundAny : Bool)
  /-- The pass has taken `a` out of the cache. -/
  | extracted (pending : List TypeId) (a : Arc)
  /-- The pass awaits the teardown of what was in `a`. -/
  | tearing (pending : List TypeId) (a : Arc)
  | teardownDone (r : Except Unit Unit)
  deriving DecidableEq

/-- One step of a spawned task. -/
inductive Act
  | lockSetup (n : NodeId)
  | setup (n : NodeId) (script : Script)
  | cancelSetup (n : NodeId)
  | clone (n : NodeId) (a : Arc)
  | testEnd (n : NodeId) (r : Except Unit Unit)
  | lockTeardown (n : NodeId)
  | visit (n : NodeId) (f : TypeId)
  | unwrap (n : NodeId)
  | teardownEnd (n : NodeId) (r : Except Unit Unit)
  | nextPass (n : NodeId)
  | sweepEnd (n : NodeId)
  | cancelTeardown (n : NodeId)

/-- The node whose task takes the step. -/
def Act.node : Act → NodeId
  | .lockSetup n | .setup n _ | .cancelSetup n | .clone n _ | .testEnd n _ | .lockTeardown n
  | .visit n _ | .unwrap n | .teardownEnd n _ | .nextPass n | .sweepEnd n | .cancelTeardown n => n

structure State where
  statistics : Statistics
  inner : Inner
  /-- The task that holds the lock of `Fixtures`. -/
  lock : Option NodeId
  tasks : NodeId → Option TaskState
  /-- The task whose panic the hook captured last. -/
  backtrace : Option NodeId
  /-- The failures reported, with the backtrace printed for each. -/
  reports : List (NodeId × Option NodeId)

namespace State

/-- Before the first task. -/
def init (statistics : Statistics) (inner : Inner) : State :=
  ⟨statistics, inner, none, fun _ => none, none, []⟩

def setTask (s : State) (n : NodeId) (t : Option TaskState) : State :=
  { s with tasks := fun m => if m = n then t else s.tasks m }

def setInner (s : State) (inner : Inner) : State := { s with inner }

def setLock (s : State) (lock : Option NodeId) : State := { s with lock }

/-- The panic hook. -/
def panicked (s : State) (n : NodeId) (r : Except Unit Unit) : State :=
  match r with
  | .ok () => s
  | .error () => { s with backtrace := some n }

/-- The caller takes the output of a setup. -/
def takeOutput (s : State) (n : NodeId) : Except Unit (Option Arc) → Inner
  | .ok (some a) => (s.inner.release (.task n)).hold (.node n) a
  | .ok none | .error () => s.inner

/-- The effect of an operation. -/
def call (s : State) : OpCall → Option State
  | ⟨.enter _, _⟩ => some s
  | ⟨.record _ name event, _⟩ =>
    (s.statistics.record name event).map fun statistics => { s with statistics }
  | ⟨.spawn n (.setup f) _, _⟩ => some (s.setTask n (some (.setup f)))
  | ⟨.spawn n (.test a) _, _⟩ =>
    some ((s.setTask n (some .test)).setInner (s.inner.hold (.body n) a))
  | ⟨.spawn n .teardown _, _⟩ => some (s.setTask n (some .teardown))
  | ⟨.join n (.setup _), r⟩ =>
    if s.tasks n = some (.setupDone r) then some ((s.setTask n none).setInner (s.takeOutput n r))
    else none
  | ⟨.join n (.test _), r⟩ =>
    if s.tasks n = some (.testDone r) then some (s.setTask n none) else none
  | ⟨.join n .teardown, r⟩ =>
    if s.tasks n = some (.teardownDone r) then some (s.setTask n none) else none
  | ⟨.report n, _⟩ => some { s with reports := s.reports ++ [(n, s.backtrace)] }
  | ⟨.drop n _, _⟩ => some (s.setInner (s.inner.release (.node n)))

/-- The output of a setup, held by its task until it is joined. -/
def giveOutput (inner : Inner) (n : NodeId) : Except Unit (Option Arc) → Inner
  | .ok (some a) => inner.hold (.task n) a
  | .ok none | .error () => inner

/-- The hook runs when a setup panics or times out. -/
def setupPanicked (s : State) (n : NodeId) : Except Unit (Option Arc) → State
  | .ok _ => s
  | .error () => { s with backtrace := some n }

/-- One step of a task. -/
def act (G : FixtureGraph) (s : State) : Act → Option State
  | .lockSetup n =>
    match s.tasks n, s.lock with
    | some (.setup f), none => some ((s.setTask n (some (.setupLocked f))).setLock (some n))
    | _, _ => none
  | .setup n script =>
    match s.tasks n with
    | some (.setupLocked f) =>
      if script.respects G f then
        let (inner, r) := s.inner.setup f (script.run [])
        some ((((s.setTask n (some (.setupDone r))).setInner (giveOutput inner n r)).setLock
          none).setupPanicked n r)
      else none
    | _ => none
  | .cancelSetup n =>
    match s.tasks n, s.lock with
    | some (.setup _), some _ =>
      some ((s.setTask n (some (.setupDone (.error ())))).panicked n (.error ()))
    | _, _ => none
  | .clone n a =>
    if s.tasks n = some .test ∧
        (a ∈ s.inner.heldBy (.body n) ∨
          ∃ b ∈ s.inner.heldBy (.body n), a ∈ s.inner.heldBy (.inst b)) then
      some (s.setInner (s.inner.hold (.body n) a))
    else none
  | .testEnd n r =>
    if s.tasks n = some .test then
      some (((s.setTask n (some (.testDone r))).setInner (s.inner.release (.body n))).panicked n r)
    else none
  | .lockTeardown n =>
    match s.tasks n, s.lock with
    | some .teardown, none =>
      some ((s.setTask n (some (.sweep s.inner.cache.keys false))).setLock (some n))
    | _, _ => none
  | .visit n f =>
    match s.tasks n, s.inner.cache.lookup f with
    | some (.sweep pending foundAny), some a =>
      if f ∈ pending then
        if s.inner.strongCount a = 1 then
          some ((s.setTask n (some (.extracted (pending.erase f) a))).setInner
            ((s.inner.extract f).hold (.task n) a))
        else some (s.setTask n (some (.sweep (pending.erase f) foundAny)))
      else none
    | _, _ => none
  | .unwrap n =>
    match s.tasks n with
    | some (.extracted pending a) =>
      if s.inner.strongCount a = 1 then
        some ((s.setTask n (some (.tearing pending a))).setInner
          ((s.inner.release (.task n)).log (.teardown a)))
      else
        some ((((s.setTask n (some (.teardownDone (.error ())))).setInner
          (s.inner.release (.task n))).setLock none).panicked n (.error ()))
    | _ => none
  | .teardownEnd n r =>
    match s.tasks n with
    | some (.tearing pending a) =>
      match r with
      | .ok () =>
        some ((s.setTask n (some (.sweep pending true))).setInner (s.inner.release (.inst a)))
      | .error () =>
        some ((((s.setTask n (some (.teardownDone (.error ())))).setInner
          (s.inner.release (.inst a))).setLock none).panicked n (.error ()))
    | _ => none
  | .nextPass n =>
    match s.tasks n with
    | some (.sweep [] true) => some (s.setTask n (some (.sweep s.inner.cache.keys false)))
    | _ => none
  | .sweepEnd n =>
    match s.tasks n with
    | some (.sweep [] false) =>
      some ((s.setTask n (some (.teardownDone (.ok ())))).setLock none)
    | _ => none
  | .cancelTeardown n =>
    match s.tasks n, s.lock with
    | some .teardown, some _ =>
      some ((s.setTask n (some (.teardownDone (.error ())))).panicked n (.error ()))
    | _, _ => none

end State

end E2etest
