import E2etest.Async.Complete
import E2etest.Run

/-!
# The words of the runner

What operations `run_test` and `run_group` do, in order, for given answers. Each function of
`task.rs`, `test.rs` and `group.rs` has its word, and its `completes_` lemma says that complete
executions are exactly these words: `completes_runTest`, `completes_runGroup`. Every later statement
about traces is read off them; none unfolds a program again.
-/

namespace E2etest

open Async Text Prog

/-- A call of `Statistics::record`. -/
abbrev recorded (n : NodeId) (name : Str) (event : Event) : OpCall := ⟨.record n name event, ()⟩

/-- The event at the end of a setup. -/
def setupEvent (task : Task) : Except Unit (Option Arc) → Event
  | .ok (some _) => .setupPassed
  | .ok none => .setupSkipped task
  | .error _ => .setupFailed task

/-- The event at the end of a test. -/
def testEvent : Except Unit Unit → Event
  | .ok _ => .testPassed
  | .error _ => .testFailed

/-- The event at the end of a teardown. -/
def teardownEvent : Except Unit Unit → Event
  | .ok _ => .teardownPassed
  | .error _ => .teardownFailed

/-- The word of `task::single`. -/
def singleWord (n : NodeId) (job : Job) (timeout : Duration) (r : Except Unit job.Output) :
    List OpCall :=
  [⟨.spawn n job timeout, ()⟩, ⟨.join n job, r⟩] ++
    match r with
    | .ok _ => []
    | .error _ => [⟨.report n, ()⟩]

/-- The word of `task::setup`. -/
def setupWord (n : NodeId) (name : Str) (task : Task) (f : TypeId) (timeout : Duration)
    (r : Except Unit (Option Arc)) : List OpCall :=
  recorded n name .setupLaunched :: singleWord n (.setup f) timeout r ++
    [recorded n name (setupEvent task r)]

/-- The word of `task::test`. -/
def testWord (n : NodeId) (name : Str) (a : Arc) (timeout : Duration) (r : Except Unit Unit) :
    List OpCall :=
  recorded n name .testLaunched :: singleWord n (.test a) timeout r ++
    [recorded n name (testEvent r)]

/-- The word of `task::teardown`. -/
def teardownWord (n : NodeId) (name : Str) (timeout : Duration) (r : Except Unit Unit) :
    List OpCall :=
  recorded n name .teardownLaunched :: singleWord n .teardown timeout r ++
    [recorded n name (teardownEvent r)]

theorem completes_single {n : NodeId} {job : Job} {timeout : Duration} {t : List OpCall}
    {r : Except Unit job.Output} :
    Completes (task.single n job timeout) t r ↔ t = singleWord n job timeout r := by
  simp only [task.single, await, bind_eq, await_bind, completes_op]
  constructor
  · rintro ⟨⟨⟩, s, rfl, r', u, rfl, h⟩
    cases r' with
    | ok a =>
      obtain ⟨rfl, rfl⟩ := completes_pure.mp h
      rfl
    | error e =>
      obtain ⟨⟨⟩, v, rfl, hv⟩ := completes_op.mp h
      obtain ⟨rfl, rfl⟩ := completes_pure.mp hv
      rfl
  · rintro rfl
    refine ⟨(), _, rfl, r, _, rfl, ?_⟩
    cases r with
    | ok a => exact completes_pure.mpr ⟨rfl, rfl⟩
    | error e => exact completes_op.mpr ⟨(), [], rfl, completes_pure.mpr ⟨rfl, rfl⟩⟩

/-- A record before a return. -/
theorem completes_recorded {α : Type} {n : NodeId} {name : Str} {event : Event} {r r' : α}
    {t : List OpCall} :
    Completes (.op (.record n name event) fun _ => .pure r') t r ↔
      t = [recorded n name event] ∧ r = r' := by
  simp only [completes_op, completes_pure]
  constructor
  · rintro ⟨⟨⟩, _, rfl, rfl, rfl⟩
    exact ⟨rfl, rfl⟩
  · rintro ⟨rfl, rfl⟩
    exact ⟨(), [], rfl, rfl, rfl⟩

theorem completes_setup {n : NodeId} {name : Str} {kind : Task} {f : TypeId} {timeout : Duration}
    {t : List OpCall} {r : Except Unit (Option Arc)} :
    Completes (task.setup n name kind f timeout) t r ↔ t = setupWord n name kind f timeout r := by
  simp only [task.setup, bind_eq, await, await_bind, completes_op, completes_bind]
  constructor
  · rintro ⟨⟨⟩, _, rfl, v, r', u, rfl, hv, h⟩
    obtain rfl := completes_single.mp hv
    rcases r' with e | _ | a <;>
    · obtain ⟨rfl, rfl⟩ := completes_recorded.mp h
      rfl
  · rintro rfl
    refine ⟨(), _, rfl, _, r, _, rfl, completes_single.mpr rfl, ?_⟩
    rcases r with e | _ | a <;> exact completes_recorded.mpr ⟨rfl, rfl⟩

/-- A task between a record that it is launched and one of how it ended. -/
theorem completes_launched {n : NodeId} {name : Str} {job : Job} {timeout : Duration}
    {launched : Event} {ended : Except Unit job.Output → Event}
    {k : Except Unit job.Output → Future Unit}
    (hk : ∀ r t, Completes (k r) t () ↔ t = [recorded n name (ended r)]) {t : List OpCall} :
    Completes (do
      await (.record n name launched)
      let result ← task.single n job timeout
      k result) t () ↔ ∃ r, t =
      recorded n name launched :: singleWord n job timeout r ++ [recorded n name (ended r)] := by
  simp only [bind_eq, await, await_bind, completes_op, completes_bind]
  constructor
  · rintro ⟨⟨⟩, _, rfl, v, r, u, rfl, hv, h⟩
    obtain rfl := completes_single.mp hv
    obtain rfl := (hk r u).mp h
    exact ⟨r, rfl⟩
  · rintro ⟨r, rfl⟩
    exact ⟨(), _, rfl, _, r, _, rfl, completes_single.mpr rfl, (hk r _).mpr rfl⟩

theorem completes_teardown {n : NodeId} {name : Str} {timeout : Duration} {t : List OpCall} :
    Completes (task.teardown n name timeout) t () ↔ ∃ r, t = teardownWord n name timeout r := by
  unfold task.teardown
  refine completes_launched fun r t => ?_
  cases r <;> exact completes_await

theorem completes_test {n : NodeId} {name : Str} {a : Arc} {timeout : Duration} {t : List OpCall} :
    Completes (task.test n name a timeout) t () ↔ ∃ r, t = testWord n name a timeout r := by
  unfold task.test
  refine completes_launched fun r t => ?_
  cases r <;> exact completes_await

/-! ## Tests and groups -/

/-- What a node does before what is inside. -/
def openWord (n : NodeId) (name : Str) (kind : Task) (f : Fixture) (defaultTimeout : Duration)
    (r : Except Unit (Option Arc)) : List OpCall :=
  ⟨.enter n, ()⟩ :: setupWord n name kind f.typeId (f.timeoutSetup.getD defaultTimeout) r

/-- What a node does after what is inside: it drops its fixture, if it has one, and tears down. -/
def closeWord (n : NodeId) (name : Str) (f : Fixture) (defaultTimeout : Duration)
    (r : Except Unit (Option Arc)) (down : Except Unit Unit) : List OpCall :=
  (match r with
    | .ok (some a) => [⟨.drop n a, ()⟩]
    | .ok none | .error _ => []) ++
  teardownWord n name (f.timeoutTeardown.getD defaultTimeout) down

/-- The word of a node around what is inside. -/
def spanWord (n : NodeId) (name : Str) (kind : Task) (f : Fixture) (defaultTimeout : Duration)
    (r : Except Unit (Option Arc)) (inside : List OpCall) (down : Except Unit Unit) :
    List OpCall :=
  openWord n name kind f defaultTimeout r ++
    (inside ++ closeWord n name f defaultTimeout r down)

/-- Something is inside only if the setup passed. -/
def Passed (r : Except Unit (Option Arc)) (inside : List OpCall) (P : Arc → Prop) : Prop :=
  (∃ a, r = .ok (some a) ∧ P a) ∨ ((∀ a, r ≠ .ok (some a)) ∧ inside = [])

/-- What `run_test` and `run_group` have in common: `inside` is done with the fixture. -/
def span (n : NodeId) (name : Str) (kind : Task) (f : Fixture) (defaultTimeout : Duration)
    (inside : Arc → Future Unit) : Future Unit := do
  await (.enter n)
  let fixture ← task.setup n name kind f.typeId (f.timeoutSetup.getD defaultTimeout)
  match fixture with
  | .ok (some fixture) => do
    inside fixture
    await (.drop n fixture)
    task.teardown n name (f.timeoutTeardown.getD defaultTimeout)
  | .ok none | .error () => task.teardown n name (f.timeoutTeardown.getD defaultTimeout)

theorem runTest_eq_span (n : NodeId) (groupName : Str) (ctx : RunContext) (t : Test) :
    runTest n groupName ctx t = span n (groupName ++ sep ++ t.name) .test t.fixture
      ctx.defaultTimeout fun a =>
        task.test n (groupName ++ sep ++ t.name) a (t.timeout.getD ctx.defaultTimeout) := rfl

/-- The three loops of `run_group`. -/
def groupInside (pos : List Nat) (parentNames : List Str) (ctx : RunContext) (ts : List Test)
    (gs : List Group) : Future Unit := do
  runGroups pos 0 parentNames ctx gs
  Prog.forEachConcurrent ctx.concurrency ((phase parentNames ctx true ts).map fun t =>
    runTest (.test pos t.2) (join parentNames) ctx t.1)
  Prog.forEachSeq ((phase parentNames ctx false ts).map fun t =>
    runTest (.test pos t.2) (join parentNames) ctx t.1)

theorem runGroup_eq_span (pos : List Nat) (parentNames : List Str) (ctx : RunContext) (name : Str)
    (f : Fixture) (ts : List Test) (gs : List Group) :
    runGroup pos parentNames ctx (.mk name f ts gs) =
      span (.group pos) (join (parentNames ++ [name])) .group f ctx.defaultTimeout fun _ =>
        groupInside pos (parentNames ++ [name])
          (ctx.updateConcurrencyEnabled f.testCanRunConcurrently) ts gs := by
  simp only [runGroup, span, groupInside, bind_eq, bind_assoc]
  rfl

/-- **A span** completes in the word of the node around a complete word of what is inside. -/
theorem completes_span {n : NodeId} {name : Str} {kind : Task} {f : Fixture}
    {defaultTimeout : Duration} {inside : Arc → Future Unit} {w : List OpCall} :
    Completes (span n name kind f defaultTimeout inside) w () ↔ ∃ r mid down,
      w = spanWord n name kind f defaultTimeout r mid down ∧
        Passed r mid fun a => Completes (inside a) mid () := by
  simp only [span, bind_eq, await, await_bind, completes_op, completes_bind]
  constructor
  · rintro ⟨⟨⟩, _, rfl, u, r, v, rfl, hu, h⟩
    obtain rfl := completes_setup.mp hu
    rcases r with e | _ | a
    · obtain ⟨down, rfl⟩ := completes_teardown.mp h
      exact ⟨.error e, [], down, rfl, Or.inr ⟨by simp, rfl⟩⟩
    · obtain ⟨down, rfl⟩ := completes_teardown.mp h
      exact ⟨.ok none, [], down, rfl, Or.inr ⟨by simp, rfl⟩⟩
    · obtain ⟨mid, _, t₂, rfl, hmid, h₂⟩ := completes_bind.mp h
      obtain ⟨⟨⟩, t₃, rfl, h₃⟩ := completes_op.mp h₂
      obtain ⟨down, rfl⟩ := completes_teardown.mp h₃
      exact ⟨.ok (some a), mid, down, rfl, Or.inl ⟨a, rfl, hmid⟩⟩
  · rintro ⟨r, mid, down, rfl, hmid⟩
    refine ⟨(), _, rfl, setupWord n name kind _ _ r, r,
      mid ++ closeWord n name f defaultTimeout r down, rfl, completes_setup.mpr rfl, ?_⟩
    rcases r with e | _ | a
    · obtain ⟨_, ⟨⟩, -⟩ | ⟨-, rfl⟩ := hmid
      exact completes_teardown.mpr ⟨down, rfl⟩
    · obtain ⟨_, ⟨⟩, -⟩ | ⟨-, rfl⟩ := hmid
      exact completes_teardown.mpr ⟨down, rfl⟩
    · obtain ⟨_, ⟨⟩, hmid⟩ | ⟨hne, -⟩ := hmid
      · exact completes_bind.mpr ⟨mid, (), _, rfl, hmid,
          completes_op.mpr ⟨(), _, rfl, completes_teardown.mpr ⟨down, rfl⟩⟩⟩
      · exact absurd rfl (hne a)

/-- **`run_test`** is the span of the test around its body. -/
theorem completes_runTest {n : NodeId} {groupName : Str} {ctx : RunContext} {t : Test}
    {w : List OpCall} : Completes (runTest n groupName ctx t) w () ↔ ∃ r mid down,
      w = spanWord n (groupName ++ sep ++ t.name) .test t.fixture ctx.defaultTimeout r mid down ∧
        Passed r mid fun a => ∃ body, mid = testWord n (groupName ++ sep ++ t.name) a
          (t.timeout.getD ctx.defaultTimeout) body := by
  simp only [runTest_eq_span, completes_span, completes_test]

/-- **`run_group`** is the span of the group around its loops. -/
theorem completes_runGroup {pos : List Nat} {parentNames : List Str} {ctx : RunContext} {name : Str}
    {f : Fixture} {ts : List Test} {gs : List Group} {w : List OpCall} :
    Completes (runGroup pos parentNames ctx (.mk name f ts gs)) w () ↔ ∃ r mid down,
      w = spanWord (.group pos) (join (parentNames ++ [name])) .group f ctx.defaultTimeout r mid
        down ∧ Passed r mid fun _ => Completes (groupInside pos (parentNames ++ [name])
          (ctx.updateConcurrencyEnabled f.testCanRunConcurrently) ts gs) mid () := by
  simp only [runGroup_eq_span, completes_span]

/-- The words of the tests of one phase. -/
def TestWords (pos : List Nat) (parentNames : List Str) (ctx : RunContext) (concurrently : Bool)
    (ts : List Test) (ls : List (List OpCall)) : Prop :=
  List.Forall₂ (fun t l => Completes (runTest (.test pos t.2) (join parentNames) ctx t.1) l ())
    (phase parentNames ctx concurrently ts) ls

/-- **The loops of a group**: the subgroups, then the tests that may run concurrently, then the
other ones, one at a time. -/
theorem completes_groupInside {pos : List Nat} {parentNames : List Str} {ctx : RunContext}
    {ts : List Test} {gs : List Group} {w : List OpCall}
    (h : Completes (groupInside pos parentNames ctx ts gs) w ()) :
    ∃ t₁ t₂ t₃ ls₂ ls₃, w = t₁ ++ (t₂ ++ t₃) ∧
      Completes (runGroups pos 0 parentNames ctx gs) t₁ () ∧
      TestWords pos parentNames ctx true ts ls₂ ∧ Interleave ctx.concurrency [] ls₂ t₂ ∧
      TestWords pos parentNames ctx false ts ls₃ ∧ t₃ = ls₃.flatten := by
  simp only [groupInside, bind_eq, completes_bind] at h
  obtain ⟨t₁, ⟨⟩, _, rfl, h₁, t₂, ⟨⟩, t₃, rfl, h₂, h₃⟩ := h
  obtain ⟨ls₂, hls₂, hi⟩ := completes_forEachConcurrent h₂
  obtain ⟨ls₃, hls₃, rfl⟩ := completes_forEachSeq.mp h₃
  exact ⟨t₁, t₂, _, ls₂, ls₃, rfl, h₁, List.forall₂_map_left_iff.mp hls₂, hi,
    List.forall₂_map_left_iff.mp hls₃, rfl⟩

theorem completes_runGroups_cons {pos : List Nat} {j : Nat} {parentNames : List Str}
    {ctx : RunContext} {g : Group} {gs : List Group} {w : List OpCall} :
    Completes (runGroups pos j parentNames ctx (g :: gs)) w () ↔ ∃ t₁ t₂, w = t₁ ++ t₂ ∧
      (if ctx.filter.considerGroup parentNames g.name then
        Completes (runGroup (pos ++ [j]) parentNames ctx g) t₁ () else t₁ = []) ∧
      Completes (runGroups pos (j + 1) parentNames ctx gs) t₂ () := by
  simp only [runGroups, bind_eq]
  split
  · rw [completes_bind]
    constructor
    · rintro ⟨t₁, ⟨⟩, t₂, rfl, h₁, h₂⟩
      exact ⟨t₁, t₂, rfl, h₁, h₂⟩
    · rintro ⟨t₁, t₂, rfl, h₁, h₂⟩
      exact ⟨t₁, (), t₂, rfl, h₁, h₂⟩
  · constructor
    · exact fun h => ⟨[], w, rfl, rfl, h⟩
    · rintro ⟨_, t₂, rfl, rfl, h₂⟩
      exact h₂

end E2etest
