import E2etest.Async.Cell
import E2etest.Blame

/-!
# Whose backtrace is printed

All tasks share one backtrace (`Backtrace`). The panic hook writes it when a task panics, and `single`
reads it once the task has been joined. `accesses` lists what a run does with it, and
`accesses_of_run` says that this is what the state shows; each node panics and reports in turn
(`Cell.Paired`), which is what the word of `single` and the tasks agree on.

`backtrace_attributed_iff`: every failure is printed with the backtrace of its own panic if and only
if no other task panics between a panic and its report. `backtrace_of_other`: two tests that run
concurrently can do just that.
-/

namespace E2etest

open Async Text

/-! ## What a run shows -/

/-- The task has panicked, and is to be joined. -/
def panicking : Option TaskState → Bool
  | some (.setupDone (.error ())) | some (.testDone (.error ()))
  | some (.teardownDone (.error ())) => true
  | _ => false

/-- How a label uses the backtrace: the hook writes it in the step in which a task ends in a panic,
and a report reads it. -/
def access (_ : State) : Label → State → List (Access NodeId)
  | .act a, s' => if panicking (s'.tasks a.node) then [.write a.node] else []
  | .call ⟨.report n, _⟩, _ => [.read n]
  | .call _, _ => []

theorem access_act (s s' : State) (a : Act) : access s (.act a) s' =
    if panicking (s'.tasks a.node) then [.write a.node] else [] := rfl

theorem access_call (s s' : State) {c : OpCall} (h : ∀ n, c.1 ≠ .report n) :
    access s (.call c) s' = [] := by
  rcases c with ⟨op, r⟩
  cases op with
  | report n => exact absurd rfl (h n)
  | _ => rfl

/-- The uses of the backtrace, in order. -/
def accesses (G : FixtureGraph) (s : State) (t : List Label) : List (Access NodeId) :=
  s.gather G access t

/-! ## What a step shows -/

namespace State

variable {G : FixtureGraph} {s s' : State}

/-- A task that takes a step has not ended. -/
theorem ActStep.not_panicking {a : Act} (h : ActStep G s a s') :
    panicking (s.tasks a.node) = false := by
  cases h <;> simp only [Act.node, *] <;> rfl

theorem ActStep.reports {a : Act} (h : ActStep G s a s') : s'.reports = s.reports := by
  cases h with
  | @setup n f script inner r _ _ _ => rcases r with e | r <;> rfl
  | @testEnd n r _ => rcases r with e | u <;> rfl
  | _ => rfl

/-- The hook writes the backtrace of the task that panics. -/
theorem ActStep.backtrace {a : Act} (h : ActStep G s a s') :
    s'.backtrace = Cell.after s.backtrace (access s (.act a) s') := by
  rw [access_act]
  cases h with
  | @setup n f script inner r _ _ _ =>
    rw [setupPanicked_tasks, setLock_tasks, setInner_tasks, Act.node, setTask_self]
    rcases r with e | r <;> rfl
  | @testEnd n r _ =>
    rw [panicked_tasks, setInner_tasks, Act.node, setTask_self]
    rcases r with e | u <;> rfl
  | clone ht _ =>
    rw [setInner_tasks, Act.node, ht]
    rfl
  | cancelSetup _ _ | unwrapFails _ _ | teardownFails _ | cancelTeardown _ _ =>
    rw [panicked_tasks]
    simp only [setLock_tasks, setInner_tasks, Act.node, setTask_self]
    rfl
  | lockSetup _ _ | lockTeardown _ _ | take _ _ _ _ | keep _ _ _ _ | unwrap _ _ | teardownEnd _
  | nextPass _ | sweepEnd _ =>
    simp only [setLock_tasks, setInner_tasks, Act.node, setTask_self]
    rfl

/-- Only a report reads it. -/
theorem CallStep.backtrace {c : OpCall} (h : CallStep s c s') :
    s'.backtrace = Cell.after s.backtrace (access s (.call c) s') ∧
      s'.reports = s.reports ++ Cell.readings s.backtrace (access s (.call c) s') := by
  cases h with
  | report => exact ⟨rfl, rfl⟩
  | _ => exact ⟨rfl, (List.append_nil _).symm⟩

/-- A join finds a task that has ended, and returns an error if it has panicked. -/
theorem CallStep.join {n : NodeId} {job : Job} {r : Except Unit job.Output}
    (h : CallStep s ⟨.join n job, r⟩ s') :
    s'.tasks n = none ∧ (panicking (s.tasks n) = true ↔ r = .error ()) := by
  have hpanicking : ∀ {task}, s.tasks n = some task → panicking (some task) = !r.toBool →
      (panicking (s.tasks n) = true ↔ r = .error ()) := by
    intro task ht hp
    rw [ht, hp]
    rcases r with e | r
    · exact iff_of_true rfl rfl
    · exact iff_of_false Bool.false_ne_true nofun
  cases h with
  | @joinSetup _ _ r ht | @joinTest _ _ r ht | @joinTeardown _ r ht =>
    refine ⟨setTask_self _ _ _, hpanicking ht ?_⟩
    rcases r with e | r <;> rfl

end State

/-! ## Joins and reports -/

/-- Whether a report of the node is due after an operation: `single` reports the error it has got from
the join before it does anything else. -/
def dueNext : Bool → OpCall → Option Bool
  | true, ⟨.report _, _⟩ => some false
  | false, ⟨.report _, _⟩ | true, _ => none
  | false, ⟨.join _ _, .error _⟩ => some true
  | false, _ => some false

/-- What an operation does to a report that is due. -/
inductive DueStep : Bool → OpCall → Bool → Prop
  | report {n : NodeId} : DueStep true ⟨.report n, ()⟩ false
  | fails {n : NodeId} {job : Job} : DueStep false ⟨.join n job, .error ()⟩ true
  | passes {n : NodeId} {job : Job} {r : job.Output} : DueStep false ⟨.join n job, .ok r⟩ false
  | other {c : OpCall} (hr : ∀ n, c.1 ≠ .report n) (hj : ∀ n job, c.1 ≠ .join n job) :
      DueStep false c false

theorem dueNext_cases {b b' : Bool} {c : OpCall} (h : dueNext b c = some b') : DueStep b c b' := by
  rcases c with ⟨op, r⟩
  rcases op with n | ⟨n, name, event⟩ | ⟨n, job, timeout⟩ | ⟨n, job⟩ | n | ⟨n, a⟩ <;> cases b
  case report.true =>
    obtain rfl := Option.some.inj h
    exact .report
  case join.false =>
    rcases r with e | r
    · obtain rfl := Option.some.inj h
      exact .fails
    · obtain rfl := Option.some.inj h
      exact .passes
  case enter.false | record.false | spawn.false | drop.false =>
    obtain rfl := Option.some.inj h
    exact .other nofun nofun
  all_goals cases h

theorem foldlM_due_singleWord (n : NodeId) (job : Job) (dt : Duration) (r : Except Unit job.Output) :
    (singleWord n job dt r).foldlM dueNext false = some false := by
  rcases r with e | r <;> rfl

/-- A task of the node with the records around it. -/
theorem foldlM_due_recorded (n : NodeId) (name : Str) (before after : Event) (job : Job)
    (dt : Duration) (r : Except Unit job.Output) :
    (recorded n name before :: singleWord n job dt r ++ [recorded n name after]).foldlM dueNext
      false = some false := by
  change (singleWord n job dt r ++ [recorded n name after]).foldlM dueNext false = some false
  rw [List.foldlM_append, foldlM_due_singleWord]
  rfl

/-- A span leaves no report due. -/
theorem IsSpan.foldlM_due {m : Node} {dt : Duration} {w : List OpCall} (h : IsSpan m dt w) :
    w.foldlM dueNext false = some false := by
  obtain ⟨r, mid, down, rfl, hmid⟩ := h
  have hmid : mid.foldlM dueNext false = some false := by
    obtain ⟨a, rfl, hmid⟩ | ⟨-, rfl⟩ := hmid
    · split at hmid
      · obtain ⟨timeout, body, rfl⟩ := hmid
        exact foldlM_due_recorded _ _ _ _ _ _ _
      · rw [hmid]
        rfl
    · rfl
  have hopen : (openWord m.id m.path m.kind m.fixture dt r).foldlM dueNext false = some false :=
    foldlM_due_recorded m.id m.path .setupLaunched (setupEvent m.kind r) (.setup m.fixture.typeId)
      (m.fixture.timeoutSetup.getD dt) r
  have hdown := foldlM_due_recorded m.id m.path .teardownLaunched (teardownEvent down) .teardown
    (m.fixture.timeoutTeardown.getD dt) down
  have hclose : (closeWord m.id m.path m.fixture dt r down).foldlM dueNext false = some false := by
    rcases r with e | _ | a <;> exact hdown
  unfold spanWord
  rw [List.foldlM_append, hopen]
  change (mid ++ _).foldlM dueNext false = some false
  rw [List.foldlM_append, hmid]
  exact hclose

/-- A report of the node is due. -/
def reportDue (w : List OpCall) (n : NodeId) : Bool := ((proj n w).foldlM dueNext false).getD false

@[simp] theorem reportDue_nil : reportDue [] = fun _ => false := rfl

theorem RunWord.due_isSome {config : Config} {g : Group} {s w : List OpCall}
    (hw : RunWord config g w) (hs : s <+: w) (n : NodeId) :
    ((E2etest.proj n s).foldlM dueNext false).isSome := by
  refine hw.foldlM_isSome (fun m v hspan => ?_) hs n
  rw [hspan.foldlM_due]
  rfl

/-- Which reports are due after one more operation. -/
theorem reportDue_snoc {w : List OpCall} {c : OpCall}
    (h : ((proj c.1.node (w ++ [c])).foldlM dueNext false).isSome) :
    DueStep (reportDue w c.1.node) c (reportDue (w ++ [c]) c.1.node) ∧
      ∀ n, n ≠ c.1.node → reportDue (w ++ [c]) n = reportDue w n := by
  have hself : proj c.1.node (w ++ [c]) = proj c.1.node w ++ [c] := by simp [proj]
  refine ⟨?_, fun n hn => ?_⟩
  · obtain ⟨b', hb'⟩ := Option.isSome_iff_exists.mp h
    unfold reportDue
    rw [hb', Option.getD_some]
    rw [hself, List.foldlM_append] at hb'
    obtain ⟨b, hb, hnext⟩ := Option.bind_eq_some_iff.mp hb'
    rw [hb, Option.getD_some]
    refine dueNext_cases ?_
    simpa using hnext
  · have hne : proj n (w ++ [c]) = proj n w := by simp [proj, Ne.symm hn]
    unfold reportDue
    rw [hne]

/-! ## The invariant -/

/-- Only a join takes a panic from its task. -/
theorem Advance.panicking {c : OpCall} {q q' : Stage} {s s' : State} (h : Advance c q s q' s')
    (hq : Fits q (s.tasks c.1.node)) (hj : ∀ n job, c.1 ≠ .join n job) :
    panicking (s'.tasks c.1.node) = panicking (s.tasks c.1.node) := by
  cases h with
  | enter _ | report _ | record _ _ _ | drop | close _ => rfl
  | spawnSetup | spawnTest | spawnTeardown =>
    rw [hq.eq_none rfl]
    exact (congrArg E2etest.panicking (State.setTask_self _ _ _)).trans rfl
  | joinSetup _ | joinTest _ | joinTeardown _ => exact absurd rfl (hj _ _)

/-- The log is what the state shows, and who owes a report has panicked or been joined. -/
structure Accounted (due : NodeId → Bool) (log : List (Access NodeId)) (s : State) : Prop where
  paired : Cell.Paired log
  owes : ∀ n, Cell.Owes n log ↔ due n = true ∨ panicking (s.tasks n) = true
  gone : ∀ n, due n = true → s.tasks n = none
  backtrace : s.backtrace = Cell.after none log
  reports : s.reports = Cell.readings none log

namespace Accounted

variable {G : FixtureGraph} {due due' : NodeId → Bool} {log : List (Access NodeId)} {s s' : State}

/-- A step of a task. -/
theorem act {a : Act} (h : Accounted due log s) (hact : State.ActStep G s a s') :
    Accounted due (log ++ access s (.act a) s') s' := by
  have hnone : due a.node = false := by
    refine Bool.eq_false_of_not_eq_true fun hd => ?_
    obtain ⟨task, ht⟩ := exists_task hact
    cases (h.gone _ hd).symm.trans ht
  have hbefore := hact.not_panicking
  have hgone : ∀ n, due n = true → s'.tasks n = none := by
    intro n hn
    have hne : n ≠ a.node := by
      rintro rfl
      exact Bool.false_ne_true (hnone.symm.trans hn)
    rw [hact.tasks_ne hne]
    exact h.gone n hn
  have hbacktrace : s'.backtrace = Cell.after none (log ++ access s (.act a) s') := by
    rw [Cell.after_append, ← h.backtrace]
    exact hact.backtrace
  by_cases hp : panicking (s'.tasks a.node) = true
  · -- the task panics
    have hlog : access s (.act a) s' = [.write a.node] := by rw [access_act, if_pos hp]
    have hnot : ¬ Cell.Owes a.node log := by
      rw [h.owes, hnone, hbefore]
      exact fun ho => ho.elim Bool.false_ne_true Bool.false_ne_true
    rw [hlog] at hbacktrace ⊢
    refine ⟨h.paired.write hnot, fun n => ?_, hgone, hbacktrace, ?_⟩
    · rw [Cell.owes_write, h.owes]
      by_cases hn : n = a.node
      · subst hn
        exact iff_of_true (Or.inl rfl) (Or.inr hp)
      · rw [hact.tasks_ne hn]
        exact or_iff_right (Ne.symm hn)
    · rw [hact.reports, h.reports, Cell.readings_append]
      exact (List.append_nil _).symm
  · have hlog : access s (.act a) s' = [] := by rw [access_act, if_neg hp]
    rw [hlog, List.append_nil] at hbacktrace ⊢
    refine ⟨h.paired, fun n => ?_, hgone, hbacktrace, hact.reports.trans h.reports⟩
    rw [h.owes]
    by_cases hn : n = a.node
    · subst hn
      rw [hbefore, Bool.eq_false_of_not_eq_true hp]
    · rw [hact.tasks_ne hn]

/-- A step that does not use the backtrace, of a node that owes as much as before. -/
theorem quiet {n : NodeId} (h : Accounted due log s) (hbacktrace : s'.backtrace = s.backtrace)
    (hreports : s'.reports = s.reports)
    (hne : ∀ m, m ≠ n → due' m = due m ∧ s'.tasks m = s.tasks m)
    (howes : (due' n = true ∨ panicking (s'.tasks n) = true) ↔
      (due n = true ∨ panicking (s.tasks n) = true))
    (hgone : due' n = true → s'.tasks n = none) : Accounted due' log s' := by
  refine ⟨h.paired, fun m => ?_, fun m hm => ?_, hbacktrace.trans h.backtrace,
    hreports.trans h.reports⟩
  · rw [h.owes]
    by_cases hn : m = n
    · rw [hn]
      exact howes.symm
    · rw [(hne m hn).1, (hne m hn).2]
  · by_cases hn : m = n
    · rw [hn] at hm ⊢
      exact hgone hm
    · rw [(hne m hn).1] at hm
      rw [(hne m hn).2]
      exact h.gone m hm

/-- A report that is due. -/
theorem report {n : NodeId} (h : Accounted due log s) (hn : due n = true) (hn' : due' n = false)
    (hne : ∀ m, m ≠ n → due' m = due m) :
    Accounted due' (log ++ [.read n]) { s with reports := s.reports ++ [(n, s.backtrace)] } := by
  have howes : Cell.Owes n log := (h.owes n).mpr (Or.inl hn)
  refine ⟨h.paired.read howes, fun m => ?_, fun m hm => ?_, ?_, ?_⟩
  · rw [Cell.owes_read, h.owes]
    change _ ↔ due' m = true ∨ panicking (s.tasks m) = true
    by_cases hm : m = n
    · rw [hm, hn', h.gone n hn]
      exact iff_of_false (fun ho => ho.1 rfl) fun ho => ho.elim Bool.false_ne_true Bool.false_ne_true
    · rw [hne m hm]
      exact and_iff_right (Ne.symm hm)
  · have hmn : m ≠ n := by
      rintro rfl
      exact Bool.false_ne_true (hn'.symm.trans hm)
    exact h.gone m ((hne m hmn).symm.trans hm)
  · rw [Cell.after_append, ← h.backtrace]
    rfl
  · rw [Cell.readings_append, ← h.reports, ← h.backtrace]
    rfl

/-- An operation of the runner. -/
theorem call {c : OpCall} {q q' : Stage} (h : Accounted due log s) (hadv : Advance c q s q' s')
    (hfits : Fits q (s.tasks c.1.node)) (hdue : DueStep (due c.1.node) c (due' c.1.node))
    (hne : ∀ n, n ≠ c.1.node → due' n = due n) :
    Accounted due' (log ++ access s (.call c) s') s' := by
  have hothers : ∀ n, n ≠ c.1.node → due' n = due n ∧ s'.tasks n = s.tasks n :=
    fun n hn => ⟨hne n hn, hadv.callStep.tasks_ne hn⟩
  obtain ⟨hbacktrace, hreports⟩ := hadv.callStep.backtrace
  have hsilent : (∀ n, c.1 ≠ .report n) →
      ((due' c.1.node = true ∨ panicking (s'.tasks c.1.node) = true) ↔
        (due c.1.node = true ∨ panicking (s.tasks c.1.node) = true)) →
      (due' c.1.node = true → s'.tasks c.1.node = none) →
      Accounted due' (log ++ access s (.call c) s') s' := by
    intro hr howes hgone
    rw [access_call s s' hr] at hbacktrace hreports ⊢
    rw [List.append_nil]
    exact h.quiet hbacktrace (hreports.trans (List.append_nil _)) hothers howes hgone
  generalize hb : due c.1.node = b at hdue
  generalize hb' : due' c.1.node = b' at hdue
  cases hdue with
  | report =>
    cases hadv
    exact h.report hb hb' hne
  | @fails n job =>
    obtain ⟨hnone, hpanicked⟩ := hadv.callStep.join
    exact hsilent nofun (iff_of_true (Or.inl hb') (Or.inr (hpanicked.mpr rfl))) fun _ => hnone
  | @passes n job r =>
    obtain ⟨hnone, hpanicked⟩ := hadv.callStep.join
    refine hsilent nofun (iff_of_false ?_ ?_) fun _ => hnone
    · rw [hb']
      change ¬ (false = true ∨ panicking (s'.tasks n) = true)
      rw [hnone]
      exact fun ho => ho.elim Bool.false_ne_true Bool.false_ne_true
    · rw [hb]
      exact fun ho => ho.elim Bool.false_ne_true fun hp => nomatch hpanicked.mp hp
  | other hr hj =>
    refine hsilent hr ?_ fun hd => absurd (hb'.symm.trans hd) Bool.false_ne_true
    rw [hb, hb', hadv.panicking hfits hj]

end Accounted

section Run

variable {G : FixtureGraph} {config : Config} {g : Group} {x y : Sys} {t : List Label}
  {s s' : State} {l : Label}

theorem accesses_snoc (hs : x.state.replay G t = some s) (hl : s.label G l = some s') :
    accesses G x.state (t ++ [l]) = accesses G x.state t ++ access s l s' := by
  unfold accesses
  rw [State.gather_append hs]
  simp only [State.gather, hl, List.append_nil]

/-- **The uses of the backtrace are what the state shows**, at every point of every run. -/
theorem accesses_of_run (hx : run config g = some x) (h : Sys.Run G x t y) :
    Accounted (reportDue (calls t)) (accesses G x.state t) y.state := by
  refine invariant_of_run (P := fun t s => Accounted (reportDue (calls t))
    (accesses G x.state t) s) hx ?_ ?_ h
  · obtain ⟨statistics, hinit⟩ := init_of_run hx
    rw [hinit, calls_nil, reportDue_nil]
    refine ⟨.nil, fun n => ?_, fun n hn => absurd hn Bool.false_ne_true, rfl, rfl⟩
    exact iff_of_false Cell.not_owes_nil fun ho =>
      ho.elim Bool.false_ne_true Bool.false_ne_true
  · rintro t l s s' ⟨p, hrun⟩ ⟨p', hrun'⟩ hj ih
    have hs := sound_of_run hx hrun
    obtain ⟨s₁, hs₁, hl⟩ := Sys.run_snoc hrun'
    obtain rfl : s = s₁ := Option.some.inj ((Sys.run_split hrun).2.symm.trans hs₁)
    rw [accesses_snoc hs₁ hl]
    cases l with
    | act a =>
      rw [calls_append, calls_act, List.append_nil]
      exact ih.act hj.actStep
    | call c =>
      obtain ⟨w, hw, hpre⟩ := run_prefix hx hrun'
      have hcalls : calls (t ++ [Label.call c]) = calls t ++ [c] := by simp
      rw [hcalls] at hpre ⊢
      obtain ⟨hdue, hne⟩ := reportDue_snoc (hw.due_isSome hpre c.1.node)
      exact ih.call hj.advance (hs.held.task c.1.node) hdue hne

/-- **Whose backtrace is printed.** Every node panics and is reported in turn. Every failure reported
so far has been printed with the backtrace of its own panic if and only if no other task has panicked
between a panic and its report. -/
theorem backtrace_attributed_iff (hx : run config g = some x) (h : Sys.Run G x t y) :
    Cell.Paired (accesses G x.state t) ∧
      ((∀ n dump, (n, dump) ∈ y.state.reports → dump = some n) ↔
        Cell.Undisturbed (accesses G x.state t)) := by
  have haccounted := accesses_of_run hx h
  refine ⟨haccounted.paired, ?_⟩
  rw [haccounted.reports]
  exact Cell.own_readings_iff haccounted.paired

end Run

/-- A group with two tests that may overlap. -/
def failingTests : Group :=
  .mk ['r'] { typeId := 0, testCanRunConcurrently := true }
    [{ name := ['a'], fixture := { typeId := 1, testCanRunConcurrently := true } },
      { name := ['b'], fixture := { typeId := 2, testCanRunConcurrently := true } }] []

/-- Both tests fail. -/
def failingBodies : Scenario where
  body _ := .error ()

/-- A schedule in which both tests panic before a failure is reported. -/
def panicBoth : List Sys.Choice :=
  let root : NodeId := .group []
  let call : OpCall → Sys.Choice := fun c => .prog (.call c)
  let test : Nat → OpCall → Sys.Choice := fun i c => .prog (.run i (.call c))
  [call ⟨.enter root, ()⟩, call (recorded root ['r'] .setupLaunched),
    call ⟨.spawn root (.setup 0) DEFAULT_TIMEOUT, ()⟩, .act (.lockSetup root),
    .act (.setup root (.done [])), call ⟨.join root (.setup 0), .ok (some 0)⟩,
    call (recorded root ['r'] .setupPassed), .prog .start, .prog .start] ++
  ([(0, ['r', ':', ':', 'a']), (1, ['r', ':', ':', 'b'])].flatMap fun (i, name) =>
    [test i ⟨.enter (.test [] i), ()⟩, test i (recorded (.test [] i) name .setupLaunched),
      test i ⟨.spawn (.test [] i) (.setup (i + 1)) DEFAULT_TIMEOUT, ()⟩,
      .act (.lockSetup (.test [] i)), .act (.setup (.test [] i) (.done [])),
      test i ⟨.join (.test [] i) (.setup (i + 1)), .ok (some (i + 1))⟩,
      test i (recorded (.test [] i) name .setupPassed),
      test i (recorded (.test [] i) name .testLaunched),
      test i ⟨.spawn (.test [] i) (.test (i + 1)) DEFAULT_TIMEOUT, ()⟩]) ++
  [.act (.testEnd (.test [] 0) (.error ())), .act (.testEnd (.test [] 1) (.error ()))]

/-- One after the other the tests fail, each with its own backtrace. -/
theorem backtrace_attributed_oneByOne : ∃ x t s, run {} failingTests = some x ∧
    Sys.Completes noDependencies x t s ∧
    s.reports = [(.test [] 0, some (.test [] 0)), (.test [] 1, some (.test [] 1))] ∧
    Cell.Undisturbed (accesses noDependencies x.state t) := by
  obtain ⟨x, t, s, hx, h, hP⟩ := exists_completes_of_endsWith noDependencies failingBodies {}
    failingTests 100 (fun _ s => s.reports =
      [(.test [] 0, some (.test [] 0)), (.test [] 1, some (.test [] 1))] ∧
        ∀ p ∈ s.reports, p.2 = some p.1) (by decide +kernel)
  obtain ⟨hreports, hown⟩ := of_decide_eq_true hP
  exact ⟨x, t, s, hx, h, hreports,
    (backtrace_attributed_iff hx h).2.mp fun n dump hm => hown (n, dump) hm⟩

/-- **The failure of one test is printed with the backtrace of the other one.** -/
theorem backtrace_of_other : ∃ x t s, run { concurrency := 2 } failingTests = some x ∧
    Sys.Completes noDependencies x t s ∧ (.test [] 0, some (.test [] 1)) ∈ s.reports ∧
    accesses noDependencies x.state t = [.write (.test [] 0), .write (.test [] 1),
      .read (.test [] 0), .read (.test [] 1)] := by
  obtain ⟨x, t, s, hx, h, hP⟩ := exists_completes_of_endsAfter noDependencies failingBodies
    { concurrency := 2 } failingTests panicBoth 100 (fun x t s =>
      (.test [] 0, some (.test [] 1)) ∈ s.reports ∧ accesses noDependencies x.state t =
        [.write (.test [] 0), .write (.test [] 1), .read (.test [] 0), .read (.test [] 1)])
    (by decide +kernel)
  obtain ⟨hreports, haccesses⟩ := of_decide_eq_true hP
  exact ⟨x, t, s, hx, h, hreports, haccesses⟩

end E2etest
