import E2etest.Stages
import E2etest.Manager

/-!
# What a run asks of the fixture manager

`Fits` relates the stage of a node to its task: a task is there just while the node waits for it.
Together with what a node holds in each stage (`Held`) it makes every step of a run one that the
callers of the manager may take (`uses_of_joint`), so what holds for all callers holds for runs:
`owned_of_at`, `logged_of_at`.

`unwrap_succeeds` is the first result: what a sweep takes out of the cache has one `Arc`, in every
state a run can reach.
-/

namespace E2etest

open Async Text E2etest.Inner

/-- The state of the task of a node, by the stage of the node. -/
inductive Fits : Stage → Option TaskState → Prop
  | idle : Fits .idle none
  | setup {f : TypeId} : Fits (.settingUp f) (some (.setup f))
  | setupLocked {f : TypeId} : Fits (.settingUp f) (some (.setupLocked f))
  | setupDone {f : TypeId} {r : Except Unit (Option Arc)} :
      Fits (.settingUp f) (some (.setupDone r))
  | holding {a : Arc} : Fits (.holding a) none
  | test {a : Arc} : Fits (.testing a) (some .test)
  | testDone {a : Arc} {r : Except Unit Unit} : Fits (.testing a) (some (.testDone r))
  | released : Fits .released none
  | teardown : Fits .tearing (some .teardown)
  | sweep {pending : List TypeId} {foundAny : Bool} :
      Fits .tearing (some (.sweep pending foundAny))
  | extracted {pending : List TypeId} {a : Arc} : Fits .tearing (some (.extracted pending a))
  | tearing {pending : List TypeId} {a : Arc} : Fits .tearing (some (.tearing pending a))
  | teardownDone {r : Except Unit Unit} : Fits .tearing (some (.teardownDone r))
  | torn {r : Except Unit Unit} : Fits (.torn r) none
  | closed : Fits .closed none

/-- The node waits for its task. -/
def Stage.waits : Stage → Bool
  | .settingUp _ | .testing _ | .tearing => true
  | _ => false

theorem Fits.eq_none {q : Stage} {t : Option TaskState} (h : Fits q t) (hq : q.waits = false) :
    t = none := by
  cases h <;> first | rfl | cases hq

theorem fits_none {q : Stage} (hq : q.waits = false) : Fits q none := by
  cases q <;> first | constructor | cases hq

/-- What a node holds in a stage. -/
def Stage.held : Stage → List Arc
  | .holding a | .testing a => [a]
  | _ => []

/-- The tasks and the `Arc`s of the nodes are those of their stages. -/
structure Held (σ : NodeId → Stage) (s : State) : Prop where
  task : ∀ n, Fits (σ n) (s.tasks n)
  node : ∀ n, s.inner.heldBy (.node n) = (σ n).held

namespace Inner

variable {s : Inner} {h k : Holder} {a : Arc} {f : TypeId} {c : FixtureCall}

@[simp] theorem heldBy_hold :
    (s.hold h a).heldBy k = s.heldBy k ++ if h = k then [a] else [] := by
  by_cases hk : h = k <;> simp [heldBy, hold, hk]

theorem heldBy_release_self : (s.release h).heldBy h = [] := by
  simp [heldBy, release, List.filter_filter]

theorem heldBy_release_ne (hk : k ≠ h) : (s.release h).heldBy k = s.heldBy k := by
  unfold heldBy release
  rw [List.filter_filter]
  congr 1
  refine List.filter_congr fun p _ => ?_
  by_cases hp : p.1 = k <;> simp [hp, hk]

@[simp] theorem heldBy_log : (s.log c).heldBy h = s.heldBy h := rfl

@[simp] theorem heldBy_extract : (s.extract f).heldBy h = s.heldBy h := rfl

/-- A setup gives nothing to those outside. -/
theorem Extends.heldBy {s' : Inner} (he : Extends s s') (hh : ∀ b, h ≠ .inst b) :
    s'.heldBy h = s.heldBy h := by
  obtain ⟨new, hnew, hinst⟩ := he.arcs
  rw [Inner.heldBy, hnew, List.filter_append, List.map_append, ← Inner.heldBy,
    List.filter_eq_nil_iff.mpr, List.map_nil, List.append_nil]
  intro p hp he
  obtain ⟨b, hb, -⟩ := hinst p hp
  exact hh b ((of_decide_eq_true he).symm.trans hb)

end Inner

namespace State

variable {G : FixtureGraph} {s s' : State} {n : NodeId}

/-- An operation touches the task of its node only. -/
theorem CallStep.tasks_ne {c : OpCall} (h : CallStep s c s') (hn : n ≠ c.1.node) :
    s'.tasks n = s.tasks n := by
  cases h with
  | enter | record _ | report | drop => rfl
  | spawnSetup | spawnTest | spawnTeardown | joinSetup _ | joinTest _ | joinTeardown _ =>
    exact setTask_ne _ _ _ _ hn

/-- A step of a task touches that task only. -/
theorem ActStep.tasks_ne {a : Act} (h : ActStep G s a s') (hn : n ≠ a.node) :
    s'.tasks n = s.tasks n := by
  cases h with
  | setup _ _ _ =>
    rw [setupPanicked_tasks]
    exact setTask_ne _ _ _ _ hn
  | clone _ _ => rfl
  | cancelSetup _ _ | testEnd _ | unwrapFails _ _ | teardownFails _ | cancelTeardown _ _ =>
    rw [panicked_tasks]
    exact setTask_ne _ _ _ _ hn
  | lockSetup _ _ | lockTeardown _ _ | take _ _ _ _ | keep _ _ _ _ | unwrap _ _ | teardownEnd _
  | nextPass _ | sweepEnd _ => exact setTask_ne _ _ _ _ hn

/-- A step of a task goes on with what the task is for. -/
theorem ActStep.fits {a : Act} {q : Stage} (h : ActStep G s a s') (hq : Fits q (s.tasks a.node)) :
    Fits q (s'.tasks a.node) := by
  cases h with
  | clone _ _ => exact hq
  | lockSetup ht _ | lockTeardown ht _ | take ht _ _ _ | keep ht _ _ _ | unwrap ht _
  | teardownEnd ht | nextPass ht | sweepEnd ht =>
    unfold Act.node at hq
    rw [ht] at hq
    cases hq
    simp only [Act.node, setLock_tasks, setInner_tasks, setTask_self]
    constructor
  | setup ht _ _ =>
    unfold Act.node at hq
    rw [ht] at hq
    cases hq
    simp only [Act.node, setupPanicked_tasks, setLock_tasks, setInner_tasks, setTask_self]
    constructor
  | cancelSetup ht _ | testEnd ht | unwrapFails ht _ | teardownFails ht | cancelTeardown ht _ =>
    unfold Act.node at hq
    rw [ht] at hq
    cases hq
    simp only [Act.node, panicked_tasks, setLock_tasks, setInner_tasks, setTask_self]
    constructor

/-- A step of a task leaves alone what the nodes hold. -/
theorem ActStep.heldBy {a : Act} (h : ActStep G s a s') (hs : s.Owned) (n : NodeId) :
    s'.inner.heldBy (.node n) = s.inner.heldBy (.node n) := by
  cases h with
  | lockSetup _ _ | lockTeardown _ _ | keep _ _ _ _ | nextPass _ | sweepEnd _ => rfl
  | cancelSetup _ _ | cancelTeardown _ _ => rw [panicked_inner]; rfl
  | @setup m f script inner r _ hG hr =>
    obtain ⟨hgrows, -⟩ := setup_run_spec hG hs.ok hr
    rw [← hgrows.ext.heldBy (h := .node n) nofun, setupPanicked_inner]
    rcases r with e | _ | b
    · rfl
    · rfl
    · change (inner.hold (.task m) b).heldBy (.node n) = _
      simp
  | clone _ _ | take _ _ _ _ => simp
  | testEnd _ | unwrapFails _ _ | teardownFails _ =>
    simp only [panicked_inner, setLock_inner, setInner_inner]
    exact heldBy_release_ne nofun
  | unwrap _ _ | teardownEnd _ => exact heldBy_release_ne nofun

end State

theorem Advance.callStep {c : OpCall} {q q' : Stage} {s s' : State} (h : Advance c q s q' s') :
    State.CallStep s c s' := by
  cases h with
  | enter _ => exact .enter
  | report _ => exact .report
  | record _ _ h | close h => exact .record h
  | spawnSetup => exact .spawnSetup
  | joinSetup h => exact .joinSetup h
  | spawnTest => exact .spawnTest
  | joinTest h => exact .joinTest h
  | drop => exact .drop
  | spawnTeardown => exact .spawnTeardown
  | joinTeardown h => exact .joinTeardown h

/-- An operation leaves the node in a stage that fits its task. -/
theorem Advance.fits {c : OpCall} {q q' : Stage} {s s' : State} (h : Advance c q s q' s')
    (hq : Fits q (s.tasks c.1.node)) : Fits q' (s'.tasks c.1.node) := by
  cases h with
  | enter _ | report _ | record _ _ _ => exact hq
  | spawnSetup => exact (s.setTask_self _ _).symm ▸ .setup
  | @joinSetup n f r _ =>
    refine (s.setTask_self _ _).symm ▸ fits_none ?_
    rcases r with e | _ | a <;> rfl
  | spawnTest => exact (s.setTask_self _ _).symm ▸ .test
  | joinTest _ => exact (s.setTask_self _ _).symm ▸ .holding
  | drop => exact (hq.eq_none rfl).symm ▸ .released
  | spawnTeardown => exact (s.setTask_self _ _).symm ▸ .teardown
  | joinTeardown _ => exact (s.setTask_self _ _).symm ▸ .torn
  | close _ => exact (hq.eq_none rfl).symm ▸ .closed

/-- An operation leaves alone what the other nodes hold. -/
theorem Advance.heldBy_ne {c : OpCall} {q q' : Stage} {s s' : State} (h : Advance c q s q' s')
    {n : NodeId} (hn : n ≠ c.1.node) :
    s'.inner.heldBy (.node n) = s.inner.heldBy (.node n) := by
  have hne : ∀ m, n ≠ m → Holder.node m ≠ Holder.node n := fun m hm he =>
    hm (Holder.node.inj he).symm
  cases h with
  | enter _ | report _ | record _ _ _ | spawnSetup | joinTest _ | spawnTeardown | joinTeardown _
  | close _ => rfl
  | spawnTest => simp
  | @joinSetup m f r _ _ =>
    rcases r with e | _ | a
    · rfl
    · rfl
    · change ((s.inner.release (.task m)).hold (.node m) a).heldBy (.node n) = _
      rw [heldBy_hold, if_neg (hne m hn), List.append_nil]
      exact heldBy_release_ne nofun
  | drop => exact heldBy_release_ne fun he => hne _ hn he.symm

/-- A node holds what it should hold in its stage. -/
theorem Advance.heldBy {c : OpCall} {q q' : Stage} {s s' : State} (h : Advance c q s q' s')
    (hq : s.inner.heldBy (.node c.1.node) = q.held) :
    s'.inner.heldBy (.node c.1.node) = q'.held := by
  cases h with
  | enter _ | report _ | record _ _ _ | spawnSetup | joinTest _ | spawnTeardown | joinTeardown _
  | close _ => exact hq
  | @spawnTest m a _ _ =>
    change (s.inner.hold (.body m) a).heldBy (.node m) = [a]
    rw [heldBy_hold, if_neg nofun, List.append_nil]
    exact hq
  | @joinSetup m f r _ _ =>
    rcases r with e | _ | a
    · exact hq
    · exact hq
    · have hrelease : (s.inner.release (.task m)).heldBy (.node m) = [] :=
        (heldBy_release_ne (h := .task m) (k := .node m) nofun).trans hq
      change ((s.inner.release (.task m)).hold (.node m) a).heldBy (.node m) = [a]
      rw [heldBy_hold, if_pos rfl, hrelease]
      rfl
  | drop => exact heldBy_release_self

namespace Held

open State

variable {G : FixtureGraph} {σ σ' : NodeId → Stage} {s s' : State} {l : Label}

/-- **A step of a run is one that callers may take.** -/
theorem uses (h : Held σ s) (hj : Joint G σ s l σ' s') : s.Uses G l s' := by
  cases hj with
  | act hact => exact .act hact
  | @call c q _ hadv =>
    refine .call ?_ hadv.callStep
    have ht := h.task c.1.node
    have hn := h.node c.1.node
    generalize σ c.1.node = p at hadv ht hn
    cases hadv with
    | spawnSetup | spawnTeardown => exact ht.eq_none rfl
    | @spawnTest m a _ _ =>
      refine ⟨ht.eq_none rfl, ?_⟩
      change s.inner.heldBy (.node m) = [a] at hn
      rw [hn]
      exact List.mem_singleton_self a
    | enter _ | report _ | record _ _ _ | joinSetup _ | joinTest _ | drop | joinTeardown _ | close _ =>
      trivial

theorem step (h : Held σ s) (hs : s.Owned) (hj : Joint G σ s l σ' s') : Held σ' s' := by
  cases hj with
  | @act a _ hact =>
    refine ⟨fun n => ?_, fun n => (hact.heldBy hs n).trans (h.node n)⟩
    by_cases hn : n = a.node
    · subst hn
      exact hact.fits (h.task _)
    · rw [hact.tasks_ne hn]
      exact h.task n
  | @call c q _ hadv =>
    refine ⟨fun n => ?_, fun n => ?_⟩
    · by_cases hn : n = c.1.node
      · subst hn
        rw [Function.update_self]
        exact hadv.fits (h.task _)
      · rw [Function.update_of_ne hn, hadv.callStep.tasks_ne hn]
        exact h.task n
    · by_cases hn : n = c.1.node
      · subst hn
        rw [Function.update_self]
        exact hadv.heldBy (h.node _)
      · rw [Function.update_of_ne hn, hadv.heldBy_ne hn]
        exact h.node n

end Held

/-! ## Every point of a run -/

/-- What holds at every point of a run. -/
structure Sound (config : Config) (σ : NodeId → Stage) (s : State) : Prop where
  held : Held σ s
  owned : s.Owned
  logged : s.Logged (.withPermanent config.permanentFixtures)

section Run

variable {G : FixtureGraph} {config : Config} {g : Group} {x y : Sys} {t : List Label} {s : State}

theorem Sound.step {σ σ' : NodeId → Stage} {s s' : State} {l : Label} (h : Sound config σ s)
    (hj : Joint G σ s l σ' s') : Sound config σ' s' :=
  ⟨h.held.step h.owned hj, State.owned_step (h.held.uses hj) h.owned,
    State.logged_step (h.held.uses hj) h.owned h.logged⟩

/-- The state a run starts with. -/
theorem init_of_run (hx : run config g = some x) :
    ∃ statistics, x.state = .init statistics (.withPermanent config.permanentFixtures) := by
  obtain ⟨⟨statistics, empty⟩, -, rfl⟩ := Option.map_eq_some_iff.mp hx
  exact ⟨statistics, rfl⟩

/-- **Every point of a run is sound.** -/
theorem sound_of_run (hx : run config g = some x) (h : Sys.Run G x t y) :
    Sound config (stage (calls t)) y.state := by
  refine invariant_of_run (P := fun t s => Sound config (stage (calls t)) s) hx ?_
    (fun _ _ hj hs => hs.step hj) h
  have hbare := State.bare_withPermanent config.permanentFixtures
  obtain ⟨statistics, hinit⟩ := init_of_run hx
  rw [hinit]
  refine ⟨⟨fun n => ?_, fun n => ?_⟩, State.owned_init hbare statistics,
    State.logged_init hbare statistics⟩
  · rw [calls_nil, stage_nil]
    exact .idle
  · rw [calls_nil, stage_nil]
    change (Inner.withPermanent config.permanentFixtures).heldBy (.node n) = []
    unfold Inner.heldBy
    rw [hbare.arcs]
    rfl

/-- **What a sweep takes out of the cache has one `Arc`**, so `Arc::try_unwrap` succeeds. The holders
are those of the model: no body of a test keeps an `Arc` past its end. -/
theorem unwrap_succeeds (hx : run config g = some x) (h : Sys.Run G x t y) {n : NodeId}
    {pending : List TypeId} {a : Arc} (hn : y.state.tasks n = some (.extracted pending a)) :
    y.state.inner.strongCount a = 1 ∧ y.state.inner.holders a = [.task n] ∧
      ∃ s, y.state.act G (.unwrap n) = some s ∧ s.tasks n = some (.tearing pending a) := by
  have hs := (sound_of_run hx h).owned
  have hcount := hs.strongCount_extracted hn
  refine ⟨hcount, (hs.extracted n pending a hn).1,
    (y.state.setTask n (some (.tearing pending a))).setInner
      ((y.state.inner.release (.task n)).log (.teardown a)), ?_, State.setTask_self _ _ _⟩
  simp only [State.act, hn, if_pos hcount]

/-- The sweep of the first test has taken the fixture of the test out of the cache. -/
theorem unwrap_succeeds_twoTests : ∃ x t y, run {} twoTests = some x ∧
    Sys.Run noDependencies x t y ∧
    y.state.tasks (.test [0] 0) = some (.extracted [1, 0] 2) ∧
    y.state.inner.strongCount 2 = 1 ∧ y.state.inner.holders 2 = [.task (.test [0] 0)] ∧
      ∃ s, y.state.act noDependencies (.unwrap (.test [0] 0)) = some s ∧
        s.tasks (.test [0] 0) = some (.tearing [1, 0] 2) := by
  obtain ⟨x, t, y, hx, h, hP⟩ := exists_run_of_reaches noDependencies {} {} twoTests 32
    (fun _ s => s.tasks (.test [0] 0) = some (.extracted [1, 0] 2)) (by decide +kernel)
  have hn := of_decide_eq_true hP
  exact ⟨x, t, y, hx, h, hn, unwrap_succeeds hx h hn⟩

end Run

end E2etest
