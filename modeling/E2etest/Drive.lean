import E2etest.System

/-!
# A scheduler

`drive` runs a system by a fixed rule: it lets the first program under way move, answers it with
what its task returned, and lets the task move while it has not. What user code does is given by a
`Scenario`. Its runs are runs of the system (`drive_run`).
-/

namespace E2etest

open Async Prog

/-- What user code does. -/
structure Scenario where
  /-- The setup of the fixture of a node. -/
  script : NodeId → Script := fun _ => .done []
  /-- The body of a test. -/
  body : NodeId → Except Unit Unit := fun _ => .ok ()
  /-- The teardown of a fixture. -/
  teardown : Arc → Except Unit Unit := fun _ => .ok ()

namespace Sys

/-- What an operation is answered with, as soon as it can be. -/
def answer (s : State) : (op : Op) → Option op.Result
  | .join n (.setup _) =>
    match s.tasks n with
    | some (.setupDone r) => some r
    | _ => none
  | .join n (.test _) =>
    match s.tasks n with
    | some (.testDone r) => some r
    | _ => none
  | .join n .teardown =>
    match s.tasks n with
    | some (.teardownDone r) => some r
    | _ => none
  | .enter _ | .record _ _ _ | .spawn _ _ _ | .report _ | .drop _ _ => some ()

/-- How a task goes on. -/
def taskStep (sc : Scenario) (s : State) (n : NodeId) : Option Act :=
  match s.tasks n with
  | some (.setup _) => some (.lockSetup n)
  | some (.setupLocked _) => some (.setup n (sc.script n))
  | some .test => some (.testEnd n (sc.body n))
  | some .teardown => some (.lockTeardown n)
  | some (.sweep (f :: _) _) => some (.visit n f)
  | some (.sweep [] true) => some (.nextPass n)
  | some (.sweep [] false) => some (.sweepEnd n)
  | some (.extracted _ _) => some (.unwrap n)
  | some (.tearing _ a) => some (.teardownEnd n (sc.teardown a))
  | some (.setupDone _) | some (.testDone _) | some (.teardownDone _) | none => none

/-- How a program goes on. -/
def nextOf (sc : Scenario) (s : State) : ∀ {α : Type}, Future α → Option Choice
  | _, .pure _ => none
  | _, .op e _ =>
    match answer s e with
    | some r => some (.prog (.call ⟨e, r⟩))
    | none => (taskStep sc s e.node).map .act
  | _, .forEach _ [] [] _ => some (.prog .join)
  | _, .forEach _ [] (_ :: _) _ => some (.prog .start)
  | _, .forEach _ (p :: _) _ _ =>
    match nextOf sc s p with
    | some (.prog m) => some (.prog (.run 0 m))
    | some (.act a) => some (.act a)
    | none => some (.prog (.finish 0))

/-- At most so many steps, with their labels. -/
def drive (G : FixtureGraph) (sc : Scenario) : Nat → Sys → List Label × Sys
  | 0, x => ([], x)
  | fuel + 1, x =>
    match nextOf sc x.state x.prog with
    | none => ([], x)
    | some c =>
      match perform G x c with
      | none => ([], x)
      | some y =>
        match drive G sc fuel y with
        | (t, z) => (c.label.toList ++ t, z)

/-- **The scheduler's runs are runs.** -/
theorem drive_run (G : FixtureGraph) (sc : Scenario) (fuel : Nat) (x : Sys) :
    Run G x (drive G sc fuel x).1 (drive G sc fuel x).2 := by
  induction fuel generalizing x with
  | zero => exact .refl
  | succ fuel ih =>
    unfold drive
    split
    · exact .refl
    · split
      · exact .refl
      · rename_i hc _ y hy
        exact (Run.single (perform_sound hy)).trans (ih y)

/-- The runner has returned. -/
def returned (x : Sys) : Bool :=
  match x.prog with
  | .pure () => true
  | _ => false

theorem completes_of_returned {G : FixtureGraph} {sc : Scenario} {fuel : Nat} {x : Sys}
    (h : (drive G sc fuel x).2.returned = true) :
    Completes G x (drive G sc fuel x).1 (drive G sc fuel x).2.state := by
  have hrun := drive_run G sc fuel x
  generalize (drive G sc fuel x).2 = y at h hrun
  obtain ⟨p, s⟩ := y
  cases p with
  | pure u => exact hrun
  | _ => cases h

/-- The next operation is a record that fails an assertion. -/
def panics (x : Sys) : Bool :=
  match x.prog with
  | .op (.record _ name event) _ => (x.state.statistics.record name event).isNone
  | _ => false

theorem assertFails_of_panics {x : Sys} (h : x.panics = true) : AssertFails x := by
  obtain ⟨p, s⟩ := x
  cases p with
  | op e k =>
    cases e with
    | record n name event => exact ⟨n, name, event, k (), .op _ k (), Option.isNone_iff_eq_none.mp h⟩
    | _ => cases h
  | _ => cases h

end Sys

/-- The scheduler brings the run to its end. -/
def runsToEnd (G : FixtureGraph) (sc : Scenario) (config : Config) (g : Group) (fuel : Nat) :
    Bool :=
  match run config g with
  | some x => (Sys.drive G sc fuel x).2.returned
  | none => false

theorem exists_completes_of_runsToEnd (G : FixtureGraph) (sc : Scenario) (config : Config)
    (g : Group) (fuel : Nat) (h : runsToEnd G sc config g fuel = true) : ∃ x, run config g = some x ∧
      Sys.Completes G x (Sys.drive G sc fuel x).1 (Sys.drive G sc fuel x).2.state := by
  unfold runsToEnd at h
  split at h
  · rename_i x hx
    exact ⟨x, hx, Sys.completes_of_returned h⟩
  · cases h

/-- The scheduler brings the run to its end, and then `P` holds. -/
def endsWith (G : FixtureGraph) (sc : Scenario) (config : Config) (g : Group) (fuel : Nat)
    (P : List Label → State → Bool) : Bool :=
  match run config g with
  | some x => (Sys.drive G sc fuel x).2.returned &&
      P (Sys.drive G sc fuel x).1 (Sys.drive G sc fuel x).2.state
  | none => false

theorem exists_completes_of_endsWith (G : FixtureGraph) (sc : Scenario) (config : Config)
    (g : Group) (fuel : Nat) (P : List Label → State → Bool)
    (h : endsWith G sc config g fuel P = true) :
    ∃ x t s, run config g = some x ∧ Sys.Completes G x t s ∧ P t s = true := by
  unfold endsWith at h
  split at h
  · rename_i x hx
    obtain ⟨hr, hP⟩ := Bool.and_eq_true_iff.mp h
    exact ⟨x, _, _, hx, Sys.completes_of_returned hr, hP⟩
  · cases h

/-- After some choices the scheduler brings the run to its end, and then `P` holds. -/
def endsAfter (G : FixtureGraph) (sc : Scenario) (config : Config) (g : Group)
    (cs : List Sys.Choice) (fuel : Nat) (P : Sys → List Label → State → Bool) : Bool :=
  match run config g with
  | some x =>
    match Sys.performAll G x cs with
    | some y =>
      let z := Sys.drive G sc fuel y
      z.2.returned && P x (cs.filterMap Sys.Choice.label ++ z.1) z.2.state
    | none => false
  | none => false

theorem exists_completes_of_endsAfter (G : FixtureGraph) (sc : Scenario) (config : Config)
    (g : Group) (cs : List Sys.Choice) (fuel : Nat) (P : Sys → List Label → State → Bool)
    (h : endsAfter G sc config g cs fuel P = true) :
    ∃ x t s, run config g = some x ∧ Sys.Completes G x t s ∧ P x t s = true := by
  unfold endsAfter at h
  split at h
  · rename_i x hx
    split at h
    · rename_i y hy
      obtain ⟨hr, hP⟩ := Bool.and_eq_true_iff.mp h
      have hrun := (Sys.performAll_sound hy).trans (Sys.completes_of_returned hr)
      exact ⟨x, _, _, hx, hrun, hP⟩
    · cases h
  · cases h

/-- Some choices bring the run to a point at which `P` holds. -/
def arrives (G : FixtureGraph) (config : Config) (g : Group) (cs : List Sys.Choice)
    (P : List Label → State → Bool) : Bool :=
  match run config g with
  | some x =>
    match Sys.performAll G x cs with
    | some y => P (cs.filterMap Sys.Choice.label) y.state
    | none => false
  | none => false

theorem exists_run_of_arrives (G : FixtureGraph) (config : Config) (g : Group)
    (cs : List Sys.Choice) (P : List Label → State → Bool) (h : arrives G config g cs P = true) :
    ∃ x t y, run config g = some x ∧ Sys.Run G x t y ∧ P t y.state = true := by
  unfold arrives at h
  split at h
  · rename_i x hx
    split at h
    · rename_i y hy
      exact ⟨x, _, y, hx, Sys.performAll_sound hy, h⟩
    · cases h
  · cases h

/-- The scheduler brings the run to a point at which `P` holds. -/
def reaches (G : FixtureGraph) (sc : Scenario) (config : Config) (g : Group) (fuel : Nat)
    (P : List Label → State → Bool) : Bool :=
  match run config g with
  | some x => P (Sys.drive G sc fuel x).1 (Sys.drive G sc fuel x).2.state
  | none => false

theorem exists_run_of_reaches (G : FixtureGraph) (sc : Scenario) (config : Config) (g : Group)
    (fuel : Nat) (P : List Label → State → Bool) (h : reaches G sc config g fuel P = true) :
    ∃ x t y, run config g = some x ∧ Sys.Run G x t y ∧ P t y.state = true := by
  unfold reaches at h
  split at h
  · rename_i x hx
    exact ⟨x, _, _, hx, Sys.drive_run G sc fuel x, h⟩
  · cases h

/-- The scheduler brings the run to a point, and then to another one, at which `P` holds. -/
def reachesThen (G : FixtureGraph) (sc : Scenario) (config : Config) (g : Group)
    (fuel fuel' : Nat) (P : List Label → State → List Label → State → Bool) : Bool :=
  match run config g with
  | some x =>
    let y := Sys.drive G sc fuel x
    let z := Sys.drive G sc fuel' y.2
    P y.1 y.2.state z.1 z.2.state
  | none => false

theorem exists_runs_of_reachesThen (G : FixtureGraph) (sc : Scenario) (config : Config) (g : Group)
    (fuel fuel' : Nat) (P : List Label → State → List Label → State → Bool)
    (h : reachesThen G sc config g fuel fuel' P = true) :
    ∃ x t y u z, run config g = some x ∧ Sys.Run G x t y ∧ Sys.Run G y u z ∧
      P t y.state u z.state = true := by
  unfold reachesThen at h
  split at h
  · rename_i x hx
    exact ⟨x, _, _, _, _, hx, Sys.drive_run G sc fuel x, Sys.drive_run G sc fuel' _, h⟩
  · cases h

/-- The scheduler brings the run to a failing assertion. -/
def runsToPanic (G : FixtureGraph) (sc : Scenario) (config : Config) (g : Group) (fuel : Nat) :
    Bool :=
  match run config g with
  | some x => (Sys.drive G sc fuel x).2.panics
  | none => false

theorem exists_assertFails_of_runsToPanic (G : FixtureGraph) (sc : Scenario) (config : Config)
    (g : Group) (fuel : Nat) (h : runsToPanic G sc config g fuel = true) :
    ∃ x, run config g = some x ∧ Sys.AssertFails (Sys.drive G sc fuel x).2 := by
  unfold runsToPanic at h
  split at h
  · rename_i x hx
    exact ⟨x, hx, Sys.assertFails_of_panics h⟩
  · cases h

/-- No fixture sets up another one. -/
def noDependencies : FixtureGraph := ⟨fun _ _ => false, ⟨fun a => ⟨a, fun _ h => nomatch h⟩⟩⟩

end E2etest
