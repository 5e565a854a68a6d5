import E2etest.Accounting
import E2etest.Behaviour
import E2etest.Drive

/-!
# What does not depend on the schedule

`reportGroup` is what a group records when its tests run one after the other and nothing is cached: a
function of the outcomes of the setups and of the bodies of the tests. `entries_runGroup`: what a run
records is that, in some order, whatever the concurrency and the interleaving.

`Statistics.summary` is all that `Statistics` tells, and it does not depend on the order of the log
(`summary_perm`). `schedule_independent`: so two runs of the same user code have the same summary.
-/

namespace E2etest

open Async Text Prog Demand

/-! ## The order of the log -/

/-- What `Statistics` tells. -/
structure Summary where
  isSuccess : Bool
  testsDefined : Nat
  testsIncluded : Nat
  testsLaunched : Nat
  testsPassed : Nat
  testsFailed : Nat
  testsSkipped : Nat
  testsSkippedByFixtureErr : Nat
  setupsLaunched : Nat
  setupsPassed : Nat
  setupsSkipped : Nat
  setupsFailed : Nat
  teardownsLaunched : Nat
  teardownsPassed : Nat
  teardownsFailed : Nat
  testsPassedNames : List Str
  testsSkippedNames : List Str
  testsSkippedByFixtureErrNames : List Str
  failedNames : List Str
  deriving DecidableEq

namespace Statistics

def summary (s : Statistics) : Summary where
  isSuccess := s.isSuccess
  testsDefined := s.testsDefined
  testsIncluded := s.testsIncluded
  testsLaunched := s.testsLaunched
  testsPassed := s.testsPassed
  testsFailed := s.testsFailed
  testsSkipped := s.testsSkipped
  testsSkippedByFixtureErr := s.testsSkippedByFixtureErr
  setupsLaunched := s.setupsLaunched
  setupsPassed := s.setupsPassed
  setupsSkipped := s.setupsSkipped
  setupsFailed := s.setupsFailed
  teardownsLaunched := s.teardownsLaunched
  teardownsPassed := s.teardownsPassed
  teardownsFailed := s.teardownsFailed
  testsPassedNames := s.testsPassedNames
  testsSkippedNames := s.testsSkippedNames
  testsSkippedByFixtureErrNames := s.testsSkippedByFixtureErrNames
  failedNames := s.failedNames

/-- Sorting forgets the order. -/
theorem sortDedup_congr {names names' : List Str} (h : names.Perm names') :
    sortDedup names = sortDedup names' := by
  unfold sortDedup
  congr 1
  refine List.Perm.eq_of_pairwise' (List.pairwise_insertionSort (· ≤ ·) names)
    (List.pairwise_insertionSort (· ≤ ·) names') ?_
  exact ((List.perm_insertionSort _ _).trans h).trans (List.perm_insertionSort _ _).symm

section Order

variable {s s' : Statistics} (hi : s'.included = s.included) (he : s.events.Perm s'.events)

include he

theorem entries_perm (p : Event → Bool) : (s.entries p).Perm (s'.entries p) := he.filter _

theorem entries_length_perm (p : Event → Bool) : (s.entries p).length = (s'.entries p).length :=
  (entries_perm he p).length_eq

include hi

theorem directAndBelowNames_perm (event : Task → Event) :
    (s.directAndBelowNames event).Perm (s'.directAndBelowNames event) := by
  unfold directAndBelowNames
  refine ((entries_perm he _).map _).append ?_
  have hbelow : s'.includedBelow = s.includedBelow := by
    funext name
    unfold includedBelow iterIncluded
    rw [hi]
  rw [hbelow]
  exact (entries_perm he _).flatMap_right _

/-- **Nothing that the statistics tell depends on the order of the log.** -/
theorem summary_perm (hd : s'.defined = s.defined) : s.summary = s'.summary := by
  have hsuccess : s.isSuccess = s'.isSuccess := by
    unfold isSuccess
    rw [hi, he.any_eq]
  have hbelow : ∀ event, s.directAndBelow event = s'.directAndBelow event := by
    intro event
    rw [directAndBelow_eq, directAndBelow_eq]
    exact (directAndBelowNames_perm hi he event).length_eq
  have hpassed : s.testsPassedNames = s'.testsPassedNames :=
    sortDedup_congr ((entries_perm he _).map _)
  have hnames : ∀ event, sortDedup (s.directAndBelowNames event) =
      sortDedup (s'.directAndBelowNames event) := fun event =>
    sortDedup_congr (directAndBelowNames_perm hi he event)
  have hfailed : s.failedNames = s'.failedNames := sortDedup_congr ((he.filter _).map _)
  unfold summary
  congr 1
  · unfold testsDefined
    rw [hd]
  · unfold testsIncluded
    rw [hi]
  · exact entries_length_perm he _
  · exact entries_length_perm he _
  · exact entries_length_perm he _
  · exact hbelow _
  · exact hbelow _
  · exact entries_length_perm he _
  · exact entries_length_perm he _
  · exact entries_length_perm he _
  · exact entries_length_perm he _
  · exact entries_length_perm he _
  · exact entries_length_perm he _
  · exact entries_length_perm he _
  · exact hnames _
  · exact hnames _

end Order

end Statistics

/-! ## What is recorded -/

/-- The event at the end of a setup. -/
def outcomeEvent (kind : Task) : Outcome → Event
  | .made => .setupPassed
  | .skipped => .setupSkipped kind
  | .failed => .setupFailed kind

/-- What a node records around what is inside, when its teardown passes. -/
def reportSpan (name : Str) (kind : Task) (o : Outcome) (inside : List EventEntry) :
    List EventEntry :=
  [⟨name, .setupLaunched⟩, ⟨name, outcomeEvent kind o⟩] ++
    ((if o = .made then inside else []) ++ [⟨name, .teardownLaunched⟩, ⟨name, .teardownPassed⟩])

/-- What a test records. -/
def reportTest (outcome : TypeId → Outcome) (body : NodeId → Except Unit Unit) (groupName : Str)
    (n : NodeId) (t : Test) : List EventEntry :=
  let name := groupName ++ sep ++ t.name
  reportSpan name .test (outcome t.fixture.typeId)
    [⟨name, .testLaunched⟩, ⟨name, testEvent (body n)⟩]

/-- What the tests of a group record that the filter lets through. -/
def reportTests (outcome : TypeId → Outcome) (body : NodeId → Except Unit Unit) (filter : Filter)
    (pos : List Nat) (parentNames : List Str) (ts : List Test) : List EventEntry :=
  (ts.zipIdx.filter fun t => filter.considerTest parentNames t.1.name).flatMap fun t =>
    reportTest outcome body (join parentNames) (.test pos t.2) t.1

mutual

/-- What a group records. -/
def reportGroup (outcome : TypeId → Outcome) (body : NodeId → Except Unit Unit) (filter : Filter)
    (pos : List Nat) (parentNames : List Str) : Group → List EventEntry
  | .mk name f ts gs =>
    reportSpan (join (parentNames ++ [name])) .group (outcome f.typeId)
      (reportGroups outcome body filter pos 0 (parentNames ++ [name]) gs ++
        reportTests outcome body filter pos (parentNames ++ [name]) ts)

/-- What the subgroups record that the filter lets through. -/
def reportGroups (outcome : TypeId → Outcome) (body : NodeId → Except Unit Unit) (filter : Filter)
    (pos : List Nat) (j : Nat) (parentNames : List Str) : List Group → List EventEntry
  | [] => []
  | g :: gs =>
    (if filter.considerGroup parentNames g.name then
      reportGroup outcome body filter (pos ++ [j]) parentNames g else []) ++
      reportGroups outcome body filter pos (j + 1) parentNames gs

end

section Words

variable {p : Plan TypeId} {b : Behaviour} {pos : List Nat} {parentNames : List Str}
  {ctx : RunContext} {ts : List Test} {gs : List Group} {w : List OpCall}

/-- The answers of a run's joins are what the user code says. -/
def AllAnswers (p : Plan TypeId) (b : Behaviour) (w : List OpCall) : Prop := ∀ c ∈ w, Answers p b c

theorem AllAnswers.left {v : List OpCall} (h : AllAnswers p b (v ++ w)) : AllAnswers p b v :=
  fun c hc => h c (List.mem_append_left _ hc)

theorem AllAnswers.right {v : List OpCall} (h : AllAnswers p b (v ++ w)) : AllAnswers p b w :=
  fun c hc => h c (List.mem_append_right _ hc)

theorem mem_singleWord {n : NodeId} {job : Job} {timeout : Duration} {r : Except Unit job.Output} :
    ⟨.join n job, r⟩ ∈ singleWord n job timeout r := by
  unfold singleWord
  exact List.mem_append_left _ (by simp)

theorem setupEvent_eq (kind : Task) (r : Except Unit (Option Arc)) :
    setupEvent kind r = outcomeEvent kind (outcomeOf r) := by
  rcases r with e | _ | a <;> rfl

/-- **The entries of a span** are what it reports, around those of what is inside. -/
theorem entries_span {n : NodeId} {name : Str} {kind : Task} {f : Fixture} {dt : Duration}
    {r : Except Unit (Option Arc)} {mid : List OpCall} {down : Except Unit Unit} {Q : Arc → Prop}
    {inside : List EventEntry} (h : AllAnswers p b (spanWord n name kind f dt r mid down))
    (hmid : Passed r mid Q) (hinside : ∀ a, Q a → (entries mid).Perm inside) :
    (entries (spanWord n name kind f dt r mid down)).Perm
      (reportSpan name kind (p.outcome f.typeId) inside) := by
  have hsetup : p.outcome f.typeId = outcomeOf r := by
    have hmem : ⟨.join n (.setup f.typeId), r⟩ ∈ openWord n name kind f dt r :=
      List.mem_cons_of_mem _ (List.mem_cons_of_mem _ (List.mem_append_left _ mem_singleWord))
    exact Ends.outcome_eq (h.left _ hmem)
  have hdown : down = .ok () := by
    have hmem : ⟨.join n .teardown, down⟩ ∈ closeWord n name f dt r down :=
      List.mem_append_right _
        (List.mem_cons_of_mem _ (List.mem_append_left _ mem_singleWord))
    exact h.right.right _ hmem
  unfold spanWord reportSpan
  rw [entries_append, entries_append, entries_openWord, entries_closeWord, setupEvent_eq, hsetup,
    hdown]
  refine List.Perm.append_left _ (List.Perm.append_right _ ?_)
  obtain ⟨a, rfl, hQ⟩ | ⟨hne, rfl⟩ := hmid
  · exact hinside a hQ
  · rcases r with e | _ | a
    · exact .refl _
    · exact .refl _
    · exact absurd rfl (hne a)

theorem entries_runTest {n : NodeId} {groupName : Str} {t : Test}
    (h : Completes (runTest n groupName ctx t) w ()) (ha : AllAnswers p b w) :
    (entries w).Perm (reportTest p.outcome b.body groupName n t) := by
  obtain ⟨r, mid, down, rfl, hmid⟩ := completes_runTest.mp h
  refine entries_span ha hmid ?_
  rintro a ⟨body, rfl⟩
  have hmem : ⟨.join n (.test a), body⟩ ∈
      testWord n (groupName ++ sep ++ t.name) a (t.timeout.getD ctx.defaultTimeout) body :=
    List.mem_cons_of_mem _ (List.mem_append_left _ mem_singleWord)
  have hbody : body = b.body n := ha.right.left _ hmem
  rw [entries_testWord, hbody]

/-- The tests of a phase. -/
theorem entries_phase {concurrently : Bool} {ls : List (List OpCall)} {n : Nat}
    (h : TestWords pos parentNames ctx concurrently ts ls) (hi : Interleave n [] ls w)
    (ha : AllAnswers p b w) :
    (entries w).Perm ((phase parentNames ctx concurrently ts).flatMap fun t =>
      reportTest p.outcome b.body (join parentNames) (.test pos t.2) t.1) := by
  have hperm : w.Perm ls.flatten := hi.perm
  have hflat : AllAnswers p b ls.flatten := fun c hc => ha c (hperm.mem_iff.mpr hc)
  refine (hperm.filterMap _).trans ?_
  clear hi ha hperm
  unfold TestWords at h
  generalize phase parentNames ctx concurrently ts = xs at h ⊢
  induction h with
  | nil => exact .refl _
  | cons hl _ ih =>
    rw [List.flatten_cons] at hflat ⊢
    rw [List.filterMap_append, List.flatMap_cons]
    exact (entries_runTest hl hflat.left).append (ih hflat.right)

/-- The loops of a group, given the one over the subgroups. -/
theorem entries_inside {inside : List EventEntry}
    (h : Completes (groupInside pos parentNames ctx ts gs) w ()) (ha : AllAnswers p b w)
    (hgs : ∀ {v}, Completes (runGroups pos 0 parentNames ctx gs) v () → AllAnswers p b v →
      (entries v).Perm inside) :
    (entries w).Perm
      (inside ++ reportTests p.outcome b.body ctx.filter pos parentNames ts) := by
  obtain ⟨t₁, t₂, t₃, ls₂, ls₃, rfl, h₁, h₂, hi, h₃, rfl⟩ := completes_groupInside h
  rw [entries_append, entries_append]
  refine (hgs h₁ ha.left).append ?_
  refine ((entries_phase h₂ hi ha.right.left).append
    (entries_phase (n := 0) h₃ (.flatten ls₃) ha.right.right)).trans ?_
  -- the tests of the two phases are all tests
  rw [← List.flatMap_append]
  unfold reportTests
  refine List.Perm.flatMap_right _ ?_
  have := List.filter_append_perm (fun x : Test × Nat =>
    ctx.isConcurrencyEnabled x.1.canRunConcurrently)
    (ts.zipIdx.filter fun x => ctx.filter.considerTest parentNames x.1.name)
  simpa [phase] using this

mutual

/-- **What a group records** is what it reports, in some order. -/
theorem entries_runGroup (pos : List Nat) (parentNames : List Str) (ctx : RunContext) :
    ∀ (g : Group) {w : List OpCall}, Completes (runGroup pos parentNames ctx g) w () →
      AllAnswers p b w →
      (entries w).Perm (reportGroup p.outcome b.body ctx.filter pos parentNames g)
  | .mk name f ts gs, w, h => by
    intro ha
    obtain ⟨r, mid, down, rfl, hmid⟩ := completes_runGroup.mp h
    refine entries_span ha hmid fun _ hinside => ?_
    have hbelow := entries_inside hinside ha.right.left fun hv hav =>
      entries_runGroups pos 0 (parentNames ++ [name])
        (ctx.updateConcurrencyEnabled f.testCanRunConcurrently) gs hv hav
    exact hbelow

theorem entries_runGroups (pos : List Nat) (j : Nat) (parentNames : List Str) (ctx : RunContext) :
    ∀ (gs : List Group) {w : List OpCall}, Completes (runGroups pos j parentNames ctx gs) w () →
      AllAnswers p b w →
      (entries w).Perm (reportGroups p.outcome b.body ctx.filter pos j parentNames gs)
  | [], w, h => by
    intro _
    obtain ⟨rfl, -⟩ := completes_pure.mp h
    exact .refl _
  | g :: gs, w, h => by
    intro ha
    obtain ⟨t₁, t₂, rfl, h₁, h₂⟩ := completes_runGroups_cons.mp h
    unfold reportGroups
    rw [entries_append]
    refine .append ?_ (entries_runGroups pos (j + 1) parentNames ctx gs h₂ ha.right)
    by_cases hc : ctx.filter.considerGroup parentNames g.name = true
    · rw [if_pos hc] at h₁ ⊢
      exact entries_runGroup (pos ++ [j]) parentNames ctx g h₁ ha.left
    · rw [if_neg hc] at h₁ ⊢
      rw [h₁]
      exact .refl _

end

end Words

/-! ## Two runs -/

section Run

variable {G : FixtureGraph} {config : Config} {g : Group} {x x' : Sys} {t t' : List Label}
  {s s' : State} {b : Behaviour}

/-- What a run records, if its user code does not look at the schedule. -/
noncomputable def report (config : Config) (g : Group) (b : Behaviour) (included : Finset Str) :
    List EventEntry :=
  if included = ∅ then []
  else reportGroup (b.planOf config).outcome b.body (.new config.filters g) [] [] g

/-- **What a run records** is a function of the user code, up to the order. -/
theorem events_of_obeys (hx : run config g = some x) (h : Sys.Completes G x t s)
    (hobeys : Obeys G b x.state t) (hpass : TeardownsPass t) (hlock : SetupsGetLock t) :
    s.statistics.events.Perm (report config g b x.state.statistics.included) := by
  have hanswers := joins_of_obeys hx h hobeys hpass hlock
  have hevents : s.statistics.events = entries (calls t) := (run_statistics hx h).2
  have hexec := (Sys.run_split h).1
  rw [hevents]
  unfold report
  rcases (run_spec hx).2.2.2 with ⟨hincluded, hprog⟩ | ⟨hincluded, hprog⟩
  · rw [hprog] at hexec
    rw [if_pos hincluded, (completes_pure.mp hexec).1]
    exact .refl _
  · rw [hprog] at hexec
    rw [if_neg hincluded]
    exact entries_runGroup [] [] (config.context g) g hexec hanswers

/-- The selection does not look at the concurrency. -/
theorem selection_eq {c c' : Nat} (hx : run { config with concurrency := c } g = some x)
    (hx' : run { config with concurrency := c' } g = some x') :
    x.state.statistics = x'.state.statistics := by
  obtain ⟨⟨statistics, empty⟩, hs, rfl⟩ := Option.map_eq_some_iff.mp hx
  obtain ⟨⟨statistics', empty'⟩, hs', rfl⟩ := Option.map_eq_some_iff.mp hx'
  obtain ⟨rfl, -⟩ := Prod.mk.inj (Option.some.inj (hs.symm.trans hs'))
  rfl

/-- **Schedule independence.** Two runs of the same user code that return tell the same, whatever the
interleaving of the tests and the limits on the concurrency, if no teardown fails and no setup waits
too long for the lock. -/
theorem schedule_independent (config : Config) {c c' : Nat}
    (hx : run { config with concurrency := c } g = some x) (h : Sys.Completes G x t s)
    (hobeys : Obeys G b x.state t) (hpass : TeardownsPass t) (hlock : SetupsGetLock t)
    (hx' : run { config with concurrency := c' } g = some x') (h' : Sys.Completes G x' t' s')
    (hobeys' : Obeys G b x'.state t') (hpass' : TeardownsPass t') (hlock' : SetupsGetLock t') :
    s.statistics.summary = s'.statistics.summary := by
  have hevents := events_of_obeys hx h hobeys hpass hlock
  have hevents' := events_of_obeys hx' h' hobeys' hpass' hlock'
  have hstatistics : s.statistics = _ := statistics_of_run hx h
  have hstatistics' : s'.statistics = _ := statistics_of_run hx' h'
  have hselection := selection_eq hx hx'
  rw [hselection] at hevents
  refine Statistics.summary_perm ?_ (hevents.trans hevents'.symm) ?_
  · rw [hstatistics, hstatistics', hselection]
  · rw [hstatistics, hstatistics', hselection]

end Run

/-- A group with two tests that may overlap. -/
def sharedTests : Group :=
  .mk ['r'] { typeId := 0, testCanRunConcurrently := true }
    [{ name := ['a'], fixture := { typeId := 2, testCanRunConcurrently := true } },
      { name := ['b'], fixture := { typeId := 3, testCanRunConcurrently := true } }] []

/-- The fixtures of both tests set up the same one. -/
def sharedPlan : Plan TypeId := fun f answers =>
  if 1 < f ∧ answers = [] then .ask 1 else .finish .made

/-- The body of the second test fails. -/
def sharedBehaviour : Behaviour where
  plan := sharedPlan
  body n := if n = .test [] 1 then .error () else .ok ()

def sharedScripts : Scenario where
  script
    | .test _ _ => .setup 1 (.done []) (.done [0])
    | .group _ => .done []
  body := sharedBehaviour.body

/-- A schedule in which both tests are set up before the body of the first one ends. -/
def setUpBoth : List Sys.Choice :=
  let root : NodeId := .group []
  let call : OpCall → Sys.Choice := fun c => .prog (.call c)
  let test : Nat → OpCall → Sys.Choice := fun i c => .prog (.run i (.call c))
  [call ⟨.enter root, ()⟩, call (recorded root ['r'] .setupLaunched),
    call ⟨.spawn root (.setup 0) DEFAULT_TIMEOUT, ()⟩, .act (.lockSetup root),
    .act (.setup root (.done [])), call ⟨.join root (.setup 0), .ok (some 0)⟩,
    call (recorded root ['r'] .setupPassed), .prog .start, .prog .start] ++
  [(0, ['r', ':', ':', 'a']), (1, ['r', ':', ':', 'b'])].flatMap fun (i, name) =>
    [test i ⟨.enter (.test [] i), ()⟩, test i (recorded (.test [] i) name .setupLaunched),
      test i ⟨.spawn (.test [] i) (.setup (i + 2)) DEFAULT_TIMEOUT, ()⟩,
      .act (.lockSetup (.test [] i)),
      .act (.setup (.test [] i) (.setup 1 (.done []) (.done [0])))]

/-- One after the other the tests set up the shared fixture twice, side by side once, and the
statistics tell the same. -/
theorem schedule_independent_sharedTests : ∃ x t s x' t' s',
    run { concurrency := 1 } sharedTests = some x ∧ Sys.Completes .onSmaller x t s ∧
    run { concurrency := 2 } sharedTests = some x' ∧ Sys.Completes .onSmaller x' t' s' ∧
    s.inner.calls.count (.setup 1) = 2 ∧ s'.inner.calls.count (.setup 1) = 1 ∧
    s.statistics.failedNames = [['r', ':', ':', 'b']] ∧
    s.statistics.summary = s'.statistics.summary := by
  obtain ⟨x, t, s, hx, h, hP⟩ := exists_completes_of_endsAfter .onSmaller sharedScripts
    { concurrency := 1 } sharedTests [] 100 (fun x t s => Obeys .onSmaller sharedBehaviour x.state t ∧
      TeardownsPass t ∧ SetupsGetLock t ∧ s.inner.calls.count (.setup 1) = 2 ∧
      s.statistics.failedNames = [['r', ':', ':', 'b']])
    (by decide +kernel)
  obtain ⟨x', t', s', hx', h', hP'⟩ := exists_completes_of_endsAfter .onSmaller sharedScripts
    { concurrency := 2 } sharedTests setUpBoth 100 (fun x t s =>
      Obeys .onSmaller sharedBehaviour x.state t ∧ TeardownsPass t ∧ SetupsGetLock t ∧
        s.inner.calls.count (.setup 1) = 1)
    (by decide +kernel)
  obtain ⟨hobeys, hpass, hlock, hcount, hfailed⟩ := of_decide_eq_true hP
  obtain ⟨hobeys', hpass', hlock', hcount'⟩ := of_decide_eq_true hP'
  exact ⟨x, t, s, x', t', s', hx, h, hx', h', hcount, hcount', hfailed,
    schedule_independent {} hx h hobeys hpass hlock hx' h' hobeys' hpass' hlock'⟩

end E2etest
