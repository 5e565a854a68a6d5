import E2etest.Ending

/-!
# Which groups are set up

`Launches` is what a run should be like at every point: no assertion of `Statistics::record` fails, a
group is set up only around an included test, and what is recorded of a test is recorded under an
included path.

* `record_never_fails_iff`: every run is like that exactly when each group that the filters let
  through has a selected test in its own subtree (`Surrounds`).
* `group_without_tests_panics`: without filters a group that has no test is entered, and its first
  record fails.

A group that is let through without one is entered in a run in which every setup passes
(`exists_passing_run`), unless an assertion fails before.
-/

namespace E2etest

open Async Text Prog Relation

/-- What a run should be like at a point. -/
structure Launches (g : Group) (t : List Label) (y : Sys) : Prop where
  /-- No assertion fails. -/
  asserts : ¬ y.AssertFails
  /-- A group is set up only around an included test. -/
  groups : ∀ n ∈ g.nodes [] [], n.id.isTest = false →
    recorded n.id n.path .setupLaunched ∈ calls t →
      ∃ m ∈ g.leaves, m.path ∈ y.state.statistics.included ∧ n.id.Encloses m.id
  /-- What is recorded of a test is recorded under an included path. -/
  tests : ∀ n name event, event.isOfTest = true → recorded n name event ∈ calls t →
    name ∈ y.state.statistics.included

/-- The filters select the test. -/
def Selected (fs : List Str) (g : Group) (m : Node) : Prop :=
  (Filter.new fs g).considerTest m.parents m.name = true

/-- The filters let the group through on the whole way: there are tests, and if some filter matches
one of a subgroup, then a selected test has the path of the group before it. -/
def LetsIn (fs : List Str) (g : Group) (n : Node) : Prop :=
  g.leaves ≠ [] ∧ (Restricts fs g → ∃ m ∈ g.leaves, Selected fs g m ∧ n.names <+: m.parents)

/-- Every group that the filters let through has a selected test in its subtree. -/
def Surrounds (fs : List Str) (g : Group) : Prop :=
  ∀ n ∈ g.nodes [] [], n.id.isTest = false → LetsIn fs g n →
    ∃ m ∈ g.leaves, Selected fs g m ∧ n.id.Encloses m.id

/-! ## Which groups are let in -/

section LetsIn

variable {config : Config} {g : Group} {x : Sys} {n : Node} {w : List OpCall}

theorem LetsIn.outer {fs : List Str} (h : LetsIn fs g n) (hn : n ∈ g.nodes [] []) {m : Node}
    (hm : m ∈ g.nodes [] []) (he : m.id.Encloses n.id) : LetsIn fs g m := by
  refine ⟨h.1, fun hr => ?_⟩
  obtain ⟨k, hk, hs, hpre⟩ := h.2 hr
  have hnames := Group.encloses_names [] [] g m hm n hn he
  exact ⟨k, hk, hs, (hnames.trans (List.prefix_append _ _)).trans hpre⟩

theorem LetsIn.considers {fs : List Str} (hg : g.ColonFree) (h : LetsIn fs g n)
    (hn : n ∈ g.nodes [] []) (ht : n.id.isTest = false) (hroot : n.id ≠ .group []) :
    (Filter.new fs g).considers n = true := by
  have hpar := Group.parents_ne_nil hn hroot
  rw [Filter.considers_group _ ht]
  by_cases hr : Restricts fs g
  · obtain ⟨m, hm, hs, hpre⟩ := h.2 hr
    exact considerGroup_of_considerTest hg hm hn hpar hpre hs
  · exact (considerGroup_iff hg hn hpar).mpr (Or.inl hr)

theorem leaves_ne_nil (hg : g.ColonFree) (hx : run config g = some x)
    (hne : x.state.statistics.included ≠ ∅) : g.leaves ≠ [] := by
  obtain ⟨p, hp⟩ := Finset.nonempty_iff_ne_empty.mpr hne
  obtain ⟨n, hn, -⟩ := (mem_included hg hx p).mp hp
  exact List.ne_nil_of_mem hn

/-- What is let in makes the run start. -/
theorem LetsIn.included_ne (hg : g.ColonFree) (hx : run config g = some x)
    (h : LetsIn config.filters g n) : x.state.statistics.included ≠ ∅ := by
  suffices hs : ∃ m ∈ g.leaves, Selected config.filters g m by
    obtain ⟨m, hm, hs⟩ := hs
    exact Finset.ne_empty_of_mem ((path_mem_included hg hx hm).mpr hs)
  by_cases hr : Restricts config.filters g
  · obtain ⟨m, hm, hs, -⟩ := h.2 hr
    exact ⟨m, hm, hs⟩
  · obtain ⟨m, hm⟩ := List.exists_mem_of_ne_nil _ h.1
    exact ⟨m, hm, (considerTest_iff hg hm).mpr (Or.inl hr)⟩

/-- A group that does something is let in. -/
theorem letsIn_of_proj (hg : g.ColonFree) (hx : run config g = some x)
    (hne : x.state.statistics.included ≠ ∅)
    (h : Completes (runGroup [] [] (config.context g) g) w ()) (hn : n ∈ g.nodes [] [])
    (ht : n.id.isTest = false) (hw : proj n.id w ≠ []) : LetsIn config.filters g n := by
  refine ⟨leaves_ne_nil hg hx hne, fun hr => ?_⟩
  obtain rfl | ⟨hroot, -⟩ := Group.eq_or_encloses hn
  · obtain ⟨p, hp⟩ := Finset.nonempty_iff_ne_empty.mpr hne
    obtain ⟨m, hm, hs, -⟩ := (mem_included hg hx p).mp hp
    obtain ⟨hmem, htest⟩ := Group.mem_leaves.mp hm
    exact ⟨m, hm, hs, (Group.nodes_spec [] [] g m hmem).2.2 htest⟩
  · have hc := considers_of_proj h hn hw hroot
    rw [Filter.considers_group _ ht] at hc
    obtain ⟨m, hm, hpre, hs⟩ :=
      exists_considerTest_below hg hr hn (Group.parents_ne_nil hn hroot) hc
    exact ⟨m, hm, hs, hpre⟩

/-- What is let in is entered, where every setup passes. -/
theorem LetsIn.proj_ne_nil (hg : g.ColonFree) (h : LetsIn config.filters g n)
    (hw : Completes (runGroup [] [] (config.context g) g) w ()) (hn : n ∈ g.nodes [] [])
    (ht : n.id.isTest = false)
    (hpass : ∀ m r, SetupReturned m r w → ∃ a, r = .ok (some a)) : proj n.id w ≠ [] := by
  -- from the root inwards: what is around the group has been entered, and its setup passed
  induction hlen : n.id.pos.length using Nat.strong_induction_on generalizing n with
  | _ k ih =>
    refine (runGroup_runs_iff [] [] _ g hw n hn).mpr
      ⟨fun hroot => h.considers hg hn ht hroot, fun m hm he => ?_⟩
    have htm := he.isTest_left
    have hin := h.outer hn hm he
    refine ⟨fun hroot => hin.considers hg hm htm hroot, ?_⟩
    have hlt : m.id.pos.length < k := by
      rw [← hlen]
      exact NodeId.Encloses.length_lt he ht
    have hne := ih _ hlt hin hm htm rfl
    have hspan := (proj_runGroup [] [] _ g hw m hm).resolve_left hne
    obtain ⟨r, hr⟩ := hspan.setupReturned
    have hr := (mem_proj.mp hr).1
    obtain ⟨a, rfl⟩ := hpass m r hr
    exact ⟨a, hr⟩

end LetsIn

/-! ## A run in which every setup passes -/

namespace State

variable {G : FixtureGraph} {s s' : State} {n : NodeId} {r : Except Unit (Option Arc)}

/-- The setups that have ended have made a fixture. -/
def SetupsPass (s : State) : Prop :=
  ∀ n r, s.tasks n = some (.setupDone r) → ∃ a, r = .ok (some a)

theorem SetupsPass.congr (h : s.SetupsPass)
    (ht : ∀ n r, s'.tasks n = some (.setupDone r) → s.tasks n = some (.setupDone r)) :
    s'.SetupsPass := fun n r hr => h n r (ht n r hr)

/-- No operation of the runner ends a setup. -/
theorem CallStep.setupDone {c : OpCall} (hs : CallStep s c s')
    (h : s'.tasks n = some (.setupDone r)) : s.tasks n = some (.setupDone r) := by
  have hset : ∀ {m : NodeId} {τ : Option TaskState}, s'.tasks = (s.setTask m τ).tasks →
      τ ≠ some (.setupDone r) → s.tasks n = some (.setupDone r) := by
    intro m τ ht hτ
    rw [ht, setTask_tasks] at h
    split at h
    · exact absurd h hτ
    · exact h
  cases hs with
  | enter => exact h
  | record _ | report | drop => exact h
  | spawnSetup | spawnTest | spawnTeardown | joinSetup _ | joinTest _ | joinTeardown _ =>
    exact hset rfl (by simp)

/-- A task ends a setup in `Inner::setup`, or when it waits too long for the lock. -/
theorem ActStep.setupDone {a : Act} (hs : ActStep G s a s')
    (h : s'.tasks n = some (.setupDone r)) : s.tasks n = some (.setupDone r) ∨
      a = .cancelSetup n ∨ ∃ script f inner, a = .setup n script ∧
        s.tasks n = some (.setupLocked f) ∧ s.inner.setup f (script.run []) = (inner, r) := by
  by_cases hn : n = a.node
  · subst hn
    unfold Act.node at h ⊢
    cases hs with
    | clone _ _ => exact Or.inl h
    | cancelSetup _ _ => exact Or.inr (Or.inl rfl)
    | @setup n f script inner r' ht _ hr =>
      rw [setupPanicked_tasks] at h
      obtain rfl := TaskState.setupDone.inj (Option.some.inj ((setTask_self _ _ _).symm.trans h))
      exact Or.inr (Or.inr ⟨script, f, inner, rfl, ht, hr⟩)
    | testEnd _ | unwrapFails _ _ | teardownFails _ | cancelTeardown _ _ =>
      rw [panicked_tasks] at h
      cases (setTask_self _ _ _).symm.trans h
    | lockSetup _ _ | lockTeardown _ _ | take _ _ _ _ | keep _ _ _ _ | unwrap _ _ | teardownEnd _
    | nextPass _ | sweepEnd _ => cases (setTask_self _ _ _).symm.trans h
  · rw [hs.tasks_ne hn] at h
    exact Or.inl h

end State

/-- A setup that returns a fixture of its own passes. -/
theorem Inner.setup_done {s inner : Inner} (hs : s.Ok) {f : TypeId} {keep : List Nat}
    {r : Except Unit (Option Arc)} (h : s.setup f (Script.run (.done keep) []) = (inner, r)) :
    ∃ a, r = .ok (some a) := by
  unfold Inner.setup at h
  split at h
  · rename_i hmem
    obtain ⟨a, ha⟩ : ∃ a, s.find f = some a := by
      unfold Inner.find
      cases hp : s.permanent.lookup f with
      | some a => exact ⟨a, rfl⟩
      | none =>
        refine Option.isSome_iff_exists.mp (AList.lookup_isSome.mpr (hmem.resolve_left fun hf => ?_))
        rw [← AList.lookup_isSome, hp] at hf
        cases hf
    rw [hs.get_eq, ha] at h
    exact ⟨a, (Prod.mk.inj h).2.symm⟩
  · exact ⟨_, (Prod.mk.inj h).2.symm⟩

section Run

variable {G : FixtureGraph} {config : Config} {g : Group} {x y z : Sys} {t : List Label}

/-- What has been set up so far has passed. -/
def Passing (t : List Label) (y : Sys) : Prop :=
  y.state.SetupsPass ∧ ∀ m r, SetupReturned m r (calls t) → ∃ a, r = .ok (some a)

/-- A step with user code that never fails. -/
theorem Passing.step (hx : run config g = some x) (hrun : Sys.Run G x t y) (h : Passing t y)
    {l : Option Label} (hs : Sys.Step G y l z) (ht : (UserCode.passing G).Takes y.state l) :
    Passing (t ++ l.toList) z := by
  obtain ⟨hpass, hreturned⟩ := h
  cases hs with
  | schedule _ =>
    refine ⟨hpass, ?_⟩
    rwa [Option.toList_none, List.append_nil]
  | @call _ _ s s' c _ hc =>
    have hcall := State.call_cases hc
    refine ⟨hpass.congr fun n r => hcall.setupDone, fun m r hr => ?_⟩
    rw [calls_append] at hr
    rcases List.mem_append.mp hr with hr | hr
    · exact hreturned m r hr
    · obtain rfl := List.mem_singleton.mp hr
      cases hcall with
      | joinSetup hτ => exact hpass _ _ hτ
  | @act p s s' a ha =>
    have hact := State.act_cases ha
    refine ⟨fun n r hr => ?_, fun m r hr => hreturned m r (by simpa using hr)⟩
    rcases hact.setupDone hr with hr | rfl | ⟨script, f, inner, rfl, hτ, hsetup⟩
    · exact hpass n r hr
    · -- no task gives up by itself
      change Sys.taskStep _ s n = _ at ht
      unfold Sys.taskStep at ht
      split at ht <;> cases ht
    · change Sys.taskStep _ s n = _ at ht
      unfold Sys.taskStep UserCode.scenario at ht
      rw [hτ] at ht
      simp only [hτ] at ht
      obtain ⟨-, rfl⟩ := Act.setup.inj (Option.some.inj ht)
      exact Inner.setup_done (sound_of_run hx hrun).owned.ok hsetup

/-- **There is a run in which every setup passes**, to its end or to an assertion that fails. -/
theorem exists_passing_run (hx : run config g = some x) : ∃ t z, Sys.Run G x t z ∧
    (z.prog = .pure () ∨ z.AssertFails) ∧
      ∀ m r, SetupReturned m r (calls t) → ∃ a, r = .ok (some a) := by
  obtain ⟨z, hz, hend⟩ := exists_goes hx (.passing G) .refl
  suffices h : ∃ t, Sys.Run G x t z ∧ Passing t z by
    obtain ⟨t, hrun, hp⟩ := h
    exact ⟨t, z, hrun, hend, hp.2⟩
  clear hend
  induction hz with
  | refl =>
    obtain ⟨statistics, hinit⟩ := init_of_run hx
    refine ⟨[], .refl, fun n r hr => ?_, fun m r hr => absurd hr List.not_mem_nil⟩
    rw [hinit] at hr
    cases hr
  | tail _ hs ih =>
    obtain ⟨t, hrun, hp⟩ := ih
    obtain ⟨l, hl, ht⟩ := hs
    exact ⟨_, hrun.tail hl, hp.step hx hrun hl ht⟩

/-! ## Every run -/

/-- What surrounds an included test is covered by it. -/
theorem covered_of_surrounds (hg : g.ColonFree) (hx : run config g = some x)
    (hs : Surrounds config.filters g) (hne : x.state.statistics.included ≠ ∅) {w : List OpCall}
    (hw : Completes (runGroup [] [] (config.context g) g) w ()) {n : Node}
    (hn : n ∈ g.nodes [] []) (hp : proj n.id w ≠ []) :
    Covered g x.state.statistics.included n := by
  cases ht : n.id.isTest with
  | true => exact covered_of_isTest hg hx hw hn hp ht
  | false =>
    obtain ⟨m, hm, hsel, he⟩ := hs n hn ht (letsIn_of_proj hg hx hne hw hn ht hp)
    have hnames := Group.encloses_names [] [] g n hn m (Group.mem_leaves.mp hm).1 he
    exact ⟨m, hm, fun h => by simp [ht] at h, hnames.trans (List.prefix_append _ _),
      (path_mem_included hg hx hm).mpr hsel⟩

theorem launches_of_surrounds (hg : g.ColonFree) (hx : run config g = some x)
    (hs : Surrounds config.filters g) (h : Sys.Run G x t y) : Launches g t y := by
  have hcov : x.state.statistics.included ≠ ∅ →
      ∀ w, Completes (runGroup [] [] (config.context g) g) w () →
        ∀ m ∈ g.nodes [] [], proj m.id w ≠ [] → Covered g x.state.statistics.included m :=
    fun hne _ hw _ hm => covered_of_surrounds hg hx hs hne hw hm
  -- what has been recorded belongs to the word of a complete run
  have hword : ∀ c ∈ calls t, x.state.statistics.included ≠ ∅ ∧
      ∃ w, Completes (runGroup [] [] (config.context g) g) w () ∧ c ∈ w := by
    intro c hc
    have hexec := (Sys.run_split h).1
    obtain ⟨-, hp⟩ | ⟨hne, hp⟩ := (run_spec hx).2.2.2 <;> rw [hp] at hexec
    · rw [(exec_pure hexec).1] at hc
      exact absurd hc List.not_mem_nil
    · obtain ⟨s, ⟨⟩, hs⟩ := hexec.extends Op.nonempty_result
      exact ⟨hne, _, hs, List.mem_append_left _ hc⟩
  have hinc : y.state.statistics.included = x.state.statistics.included := (run_statistics hx h).1
  refine ⟨not_assertFails hx hcov h, fun n hn ht hc => ?_, fun n name event hof hc => ?_⟩
  · obtain ⟨hne, w, hw, hcw⟩ := hword _ hc
    have hp : proj n.id w ≠ [] := List.ne_nil_of_mem (mem_proj.mpr ⟨hcw, rfl⟩)
    obtain ⟨m, hm, hsel, he⟩ := hs n hn ht (letsIn_of_proj hg hx hne hw hn ht hp)
    rw [hinc]
    exact ⟨m, hm, (path_mem_included hg hx hm).mpr hsel, he⟩
  · obtain ⟨hne, w, hw, hcw⟩ := hword _ hc
    have hadmit := admits_runWord hw (hcov hne w hw) hcw
    rw [hinc]
    unfold Admits at hadmit
    rwa [if_pos hof] at hadmit

/-- A span of a group starts its setup. -/
theorem IsSpan.setupLaunched {m : Node} {dt : Duration} {w : List OpCall} (h : IsSpan m dt w) :
    recorded m.id m.path .setupLaunched ∈ w := by
  obtain ⟨r, mid, down, rfl, -⟩ := h
  rcases r with e | _ | a <;> simp [spanWord, openWord, setupWord]

end Run

/-- **No assertion fails, and a group is set up only around an included test,** in every run, exactly
when each group that the filters let through has a selected test in its subtree. -/
theorem record_never_fails_iff {g : Group} (hg : g.ColonFree) (G : FixtureGraph) (config : Config) :
    (∀ x t y, run config g = some x → Sys.Run G x t y → Launches g t y) ↔
      Surrounds config.filters g := by
  constructor
  · intro h n hn ht hin
    obtain ⟨x, hx⟩ := run_isSome config g
    obtain ⟨t, z, hrun, hend, hpass⟩ := exists_passing_run (G := G) hx
    obtain ⟨p, s⟩ := z
    have hlaunches := h x t _ hx hrun
    obtain rfl := hend.resolve_right hlaunches.asserts
    -- the run has returned, and has entered the group on its way
    have hexec := (Sys.run_split hrun).1
    obtain ⟨hempty, -⟩ | ⟨-, hp⟩ := (run_spec hx).2.2.2
    · exact absurd hempty (hin.included_ne hg hx)
    rw [hp] at hexec
    have hspan := (proj_runGroup [] [] _ g hexec n hn).resolve_left
      (hin.proj_ne_nil hg hexec hn ht hpass)
    obtain ⟨m, hm, hinc, he⟩ := hlaunches.groups n hn ht (mem_proj.mp hspan.setupLaunched).1
    rw [(run_statistics hx hrun).1] at hinc
    exact ⟨m, hm, (path_mem_included hg hx hm).mp hinc, he⟩
  · intro hs x t y hx h
    exact launches_of_surrounds hg hx hs h

theorem surrounds_twoTests : Surrounds [] twoTests := by
  intro n hn ht _
  have hall : ∀ n ∈ twoTests.nodes [] [], n.id.isTest = false →
      ∃ m ∈ twoTests.leaves, (Filter.new [] twoTests).considerTest m.parents m.name = true ∧
        n.id.Encloses m.id := by decide
  exact hall n hn ht

/-- Runs without filters on a tree in which every group has a test below it. -/
theorem record_never_fails_iff_twoTests : twoTests.ColonFree ∧ Surrounds [] twoTests ∧
    ∀ x t y, run {} twoTests = some x → Sys.Run noDependencies x t y → Launches twoTests t y :=
  ⟨by decide, surrounds_twoTests,
    (record_never_fails_iff (by decide) noDependencies {}).mpr surrounds_twoTests⟩

/-- A root group `r` with a test `x` and a subgroup `e` without tests. -/
def emptySubgroup : Group :=
  .mk ['r'] { typeId := 0 } [{ name := ['x'], fixture := { typeId := 1 } }]
    [.mk ['e'] { typeId := 2 } [] []]

/-- **A group without tests panics**: no filter is given, the group is entered, and its first
record fails the assertion. -/
theorem group_without_tests_panics : emptySubgroup.ColonFree ∧ ∃ x t y,
    run {} emptySubgroup = some x ∧ Sys.Run noDependencies x t y ∧ Sys.AssertFails y := by
  refine ⟨by decide, ?_⟩
  obtain ⟨x, hx, h⟩ := exists_assertFails_of_runsToPanic noDependencies {} {} emptySubgroup 100
    (by decide +kernel)
  exact ⟨x, _, _, hx, Sys.drive_run _ _ _ x, h⟩

end E2etest
