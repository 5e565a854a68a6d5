import E2etest.State

/-!
# Runs

`Sys` is a run under way: what is left of the runner, and the shared state. Its steps are the
runner's operations, each with its effect on the state, and the steps of the spawned tasks, in any
order (`Sys.Step`). `run` is the system `e2etest::run` starts.

A run is what the runner and the state agree on: `run_split` splits it into an execution of the
runner and a replay of the labels on the state.
-/

namespace E2etest

open Async Text

/-- A visible step. -/
inductive Label
  | call (c : OpCall)
  | act (a : Act)

/-- The operation in a label. -/
def Label.call? : Label → Option OpCall
  | .call c => some c
  | .act _ => none

/-- The operations of the runner in a run. -/
def calls (t : List Label) : List OpCall := t.filterMap Label.call?

@[simp] theorem calls_nil : calls [] = [] := rfl

@[simp] theorem calls_append (s t : List Label) : calls (s ++ t) = calls s ++ calls t :=
  List.filterMap_append

@[simp] theorem calls_call (c : OpCall) : calls [.call c] = [c] := rfl

@[simp] theorem calls_act (a : Act) : calls [.act a] = [] := rfl

/-- The effect of a label on the state. -/
def State.label (G : FixtureGraph) (s : State) : Label → Option State
  | .call c => s.call c
  | .act a => s.act G a

/-- The effect of some labels on the state. -/
def State.replay (G : FixtureGraph) (s : State) (t : List Label) : Option State :=
  t.foldlM (State.label G) s

theorem State.replay_cons (G : FixtureGraph) (s : State) (l : Label) (t : List Label) :
    s.replay G (l :: t) = (s.label G l).bind fun s' => s'.replay G t := rfl

theorem State.replay_append (G : FixtureGraph) (s : State) (t u : List Label) :
    s.replay G (t ++ u) = (s.replay G t).bind fun s' => s'.replay G u := by
  simp only [State.replay, List.foldlM_append, Option.bind_eq_bind]

theorem State.replay_singleton (G : FixtureGraph) (s : State) (l : Label) :
    s.replay G [l] = s.label G l := by
  simp [State.replay]

/-- What each step of a replay shows. -/
def State.gather {β : Type} (G : FixtureGraph) (f : State → Label → State → List β) :
    State → List Label → List β
  | _, [] => []
  | s, l :: t =>
    match s.label G l with
    | some s' => f s l s' ++ gather G f s' t
    | none => []

theorem State.gather_append {β : Type} {G : FixtureGraph} {f : State → Label → State → List β}
    {s s' : State} {t u : List Label} (h : s.replay G t = some s') :
    s.gather G f (t ++ u) = s.gather G f t ++ s'.gather G f u := by
  induction t generalizing s with
  | nil =>
    obtain rfl := Option.some.inj h
    rfl
  | cons l t ih =>
    rw [State.replay_cons] at h
    obtain ⟨s₁, hl, ht⟩ := Option.bind_eq_some_iff.mp h
    simp only [List.cons_append, gather, hl, List.append_assoc, ih ht]

/-- A run under way. -/
structure Sys where
  prog : Future Unit
  state : State

namespace Sys

/-- One step of a run. -/
inductive Step (G : FixtureGraph) : Sys → Option Label → Sys → Prop
  | schedule {p q : Future Unit} {s : State} (h : Prog.Step p none q) :
      Step G ⟨p, s⟩ none ⟨q, s⟩
  | call {p q : Future Unit} {s s' : State} {c : OpCall} (h : Prog.Step p (some c) q)
      (hs : s.call c = some s') : Step G ⟨p, s⟩ (some (.call c)) ⟨q, s'⟩
  | act {p : Future Unit} {s s' : State} {a : Act} (hs : s.act G a = some s') :
      Step G ⟨p, s⟩ (some (.act a)) ⟨p, s'⟩

/-- Some steps, with their labels. -/
inductive Run (G : FixtureGraph) (x : Sys) : List Label → Sys → Prop
  | refl : Run G x [] x
  | tail {t : List Label} {y z : Sys} {l : Option Label} (h : Run G x t y) (hs : Step G y l z) :
      Run G x (t ++ l.toList) z

/-- The runner has returned. -/
def Completes (G : FixtureGraph) (x : Sys) (t : List Label) (s : State) : Prop :=
  Run G x t ⟨.pure (), s⟩

variable {G : FixtureGraph}

theorem Run.trans {x y z : Sys} {t u : List Label} (h : Run G x t y) (hu : Run G y u z) :
    Run G x (t ++ u) z := by
  induction hu with
  | refl => simpa using h
  | tail _ hs ih =>
    rw [← List.append_assoc]
    exact ih.tail hs

theorem Run.single {x y : Sys} {l : Option Label} (h : Step G x l y) : Run G x l.toList y := by
  simpa using Run.refl.tail h

/-- **A run is an execution of the runner and a replay on the state.** -/
theorem run_split {x y : Sys} {t : List Label} (h : Run G x t y) :
    Prog.Exec x.prog (calls t) y.prog ∧ x.state.replay G t = some y.state := by
  induction h with
  | refl => exact ⟨.refl _, rfl⟩
  | tail _ hs ih =>
    obtain ⟨hp, hr⟩ := ih
    cases hs with
    | schedule hs => exact ⟨by simpa using hp.snoc hs, by simpa using hr⟩
    | call hs hc =>
      refine ⟨by simpa using hp.snoc hs, ?_⟩
      rw [State.replay_append, hr]
      simpa [State.replay, State.label] using hc
    | act hs =>
      refine ⟨by simpa using hp, ?_⟩
      rw [State.replay_append, hr]
      simpa [State.replay, State.label] using hs

/-- The last label of a run, with the states before and after it. -/
theorem run_snoc {x y : Sys} {t : List Label} {l : Label} (h : Run G x (t ++ [l]) y) :
    ∃ s, x.state.replay G t = some s ∧ s.label G l = some y.state := by
  obtain ⟨-, hr⟩ := run_split h
  rw [State.replay_append] at hr
  obtain ⟨s, hs, hl⟩ := Option.bind_eq_some_iff.mp hr
  exact ⟨s, hs, by rwa [State.replay_singleton] at hl⟩

/-- An operation the runner is about to do fails an assertion of `Statistics::record`. -/
def AssertFails (x : Sys) : Prop :=
  ∃ n name event q, Prog.Step x.prog (some ⟨.record n name event, ()⟩) q ∧
    x.state.statistics.record name event = none

/-! ## One chosen step -/

/-- A choice of the scheduler. -/
inductive Choice
  | prog (m : Prog.Move Op Op.Result)
  | act (a : Act)

/-- The label of a choice. -/
def Choice.label : Choice → Option Label
  | .prog m => m.label.map .call
  | .act a => some (.act a)

/-- The system after a choice, when it is possible. -/
def perform (G : FixtureGraph) (x : Sys) : Choice → Option Sys
  | .prog m => (Prog.move m x.prog).bind fun q =>
    match m.label with
    | none => some ⟨q, x.state⟩
    | some c => (x.state.call c).map fun s => ⟨q, s⟩
  | .act a => (x.state.act G a).map fun s => ⟨x.prog, s⟩

/-- The system after some choices. -/
def performAll (G : FixtureGraph) (x : Sys) (cs : List Choice) : Option Sys :=
  cs.foldlM (perform G) x

theorem perform_sound {x y : Sys} {c : Choice} (h : perform G x c = some y) :
    Step G x c.label y := by
  cases c with
  | prog m =>
    obtain ⟨q, hq, h⟩ := Option.bind_eq_some_iff.mp h
    have hs := Prog.move_sound m hq
    cases hm : m.label with
    | none =>
      simp only [hm] at h hs
      obtain rfl := Option.some.inj h
      simpa [Choice.label, hm] using Step.schedule (G := G) (s := x.state) hs
    | some c =>
      simp only [hm] at h hs
      obtain ⟨s, hc, rfl⟩ := Option.map_eq_some_iff.mp h
      simpa [Choice.label, hm] using Step.call (G := G) hs hc
  | act a =>
    obtain ⟨s, hs, rfl⟩ := Option.map_eq_some_iff.mp h
    exact Step.act hs

theorem performAll_sound {cs : List Choice} {x y : Sys} (h : performAll G x cs = some y) :
    Run G x (cs.filterMap Choice.label) y := by
  induction cs generalizing x with
  | nil =>
    obtain rfl := Option.some.inj h
    exact .refl
  | cons c cs ih =>
    simp only [performAll, List.foldlM_cons] at h
    obtain ⟨z, hz, h⟩ := Option.bind_eq_some_iff.mp h
    have h₁ := Run.single (perform_sound hz)
    have h₂ := h₁.trans (ih h)
    cases hc : c.label <;> simpa [List.filterMap_cons, hc] using h₂

end Sys

/-- `run`: the system that is started, when no assertion fails before. When no test is included the
runner has nothing to do. -/
def run (config : Config) (group : Group) : Option Sys :=
  let ctx := config.context group
  (selectTests ctx.filter group).map fun (statistics, empty) =>
    ⟨if empty then return () else runGroup [] [] ctx group,
      .init statistics (.withPermanent config.permanentFixtures)⟩

end E2etest
