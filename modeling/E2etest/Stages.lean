import E2etest.Protocol

/-!
# How far each node is

The operations of a node take it through its stages (`Stage.next`): setting up, holding its fixture,
testing, having dropped the fixture, tearing down. Every run goes through them in order
(`stage_step`), so the runner as a whole is abstracted to a stage for each node, and `Advance` says
what one operation does to the stage of its node and to the state.

* `invariant_of_run`: what holds at first and is kept by every `Advance` and every step of a task
  holds at every point of every run.
* `not_both_moving`: while a group sets up or tears down, no other node does anything;
  `root_holding`: while any other node does anything, the root holds its fixture.
-/

namespace E2etest

open Async Text Prog

/-- How far a node is. -/
inductive Stage
  | idle
  /-- Its setup task has been spawned, for a fixture of type `f`. -/
  | settingUp (f : TypeId)
  /-- It holds its fixture. -/
  | holding (a : Arc)
  /-- Its test has been spawned. -/
  | testing (a : Arc)
  /-- It has no fixture, or not any more. -/
  | released
  /-- Its teardown task has been spawned. -/
  | tearing
  /-- Its teardown task has ended, which has not been recorded. -/
  | torn (r : Except Unit Unit)
  | closed
  deriving DecidableEq

namespace Stage

/-- The stage after a setup. -/
def afterSetup : Except Unit (Option Arc) → Stage
  | .ok (some a) => .holding a
  | .ok none | .error () => .released

/-- The stage after an operation of the node. -/
def next : Stage → OpCall → Option Stage
  | .closed, _ => none
  | q, ⟨.enter _, _⟩ | q, ⟨.report _, _⟩ => some q
  | .torn r, ⟨.record _ _ event, _⟩ => if event = teardownEvent r then some .closed else none
  | q, ⟨.record _ _ _, _⟩ => some q
  | .idle, ⟨.spawn _ (.setup f) _, _⟩ => some (.settingUp f)
  | .settingUp f, ⟨.join _ (.setup f'), r⟩ => if f = f' then some (afterSetup r) else none
  | .holding a, ⟨.spawn _ (.test a') _, _⟩ => if a = a' then some (.testing a) else none
  | .testing a, ⟨.join _ (.test a'), _⟩ => if a = a' then some (.holding a) else none
  | .holding a, ⟨.drop _ a', _⟩ => if a = a' then some .released else none
  | .released, ⟨.spawn _ .teardown _, _⟩ => some .tearing
  | .tearing, ⟨.join _ .teardown, r⟩ => some (.torn r)
  | _, _ => none

/-- The stage after some operations. -/
def after (w : List OpCall) : Option Stage := w.foldlM next .idle

theorem after_append (v w : List OpCall) :
    after (v ++ w) = (after v).bind fun q => w.foldlM next q := by
  simp only [after, List.foldlM_append, Option.bind_eq_bind]

/-- The node does something that concerns others: it is between two groups of operations that leave
nothing behind. An open group waits for what is inside. -/
def moving (isTest : Bool) : Stage → Bool
  | .idle | .closed => false
  | .holding _ => isTest
  | _ => true

section Next

variable (n : NodeId) (f : TypeId) (a : Arc) (dt : Duration) (name : Str)

@[simp] theorem next_closed (c : OpCall) : closed.next c = none := rfl

theorem next_enter {q : Stage} (h : q ≠ .closed) : q.next ⟨.enter n, ()⟩ = some q := by
  cases q <;> first | rfl | exact absurd rfl h

theorem next_report {q : Stage} (h : q ≠ .closed) : q.next ⟨.report n, ()⟩ = some q := by
  cases q <;> first | rfl | exact absurd rfl h

theorem next_recorded {q : Stage} (h : ∀ r, q ≠ .torn r) (hc : q ≠ .closed) (event : Event) :
    q.next (recorded n name event) = some q := by
  cases q <;> first | rfl | exact absurd rfl (h _) | exact absurd rfl hc

@[simp] theorem next_close (r : Except Unit Unit) :
    (torn r).next (recorded n name (teardownEvent r)) = some .closed := if_pos rfl

@[simp] theorem next_spawnSetup :
    idle.next ⟨.spawn n (.setup f) dt, ()⟩ = some (.settingUp f) := rfl

@[simp] theorem next_joinSetup (r : Except Unit (Option Arc)) :
    (settingUp f).next ⟨.join n (.setup f), r⟩ = some (afterSetup r) := if_pos rfl

@[simp] theorem next_spawnTest :
    (holding a).next ⟨.spawn n (.test a) dt, ()⟩ = some (.testing a) := if_pos rfl

@[simp] theorem next_joinTest (r : Except Unit Unit) :
    (testing a).next ⟨.join n (.test a), r⟩ = some (.holding a) := if_pos rfl

@[simp] theorem next_drop : (holding a).next ⟨.drop n a, ()⟩ = some .released := if_pos rfl

@[simp] theorem next_spawnTeardown :
    released.next ⟨.spawn n .teardown dt, ()⟩ = some .tearing := rfl

@[simp] theorem next_joinTeardown (r : Except Unit Unit) :
    tearing.next ⟨.join n .teardown, r⟩ = some (.torn r) := rfl

end Next

theorem afterSetup_ne_torn (r : Except Unit (Option Arc)) (q : Except Unit Unit) :
    afterSetup r ≠ .torn q := by
  rcases r with e | _ | a <;> exact nofun

theorem afterSetup_ne_closed (r : Except Unit (Option Arc)) : afterSetup r ≠ .closed := by
  rcases r with e | _ | a <;> exact nofun

/-- A task is spawned and joined; an error is reported, which changes nothing. -/
theorem foldlM_singleWord {n : NodeId} {job : Job} {dt : Duration} {r : Except Unit job.Output}
    {q q₁ q₂ : Stage} (h₁ : q.next ⟨.spawn n job dt, ()⟩ = some q₁)
    (h₂ : q₁.next ⟨.join n job, r⟩ = some q₂) (hc : q₂ ≠ .closed) :
    (singleWord n job dt r).foldlM next q = some q₂ := by
  rcases r with e | a <;> simp [singleWord, h₁, h₂, next_report n hc]

theorem foldlM_setupWord (n : NodeId) (name : Str) (kind : Task) (f : TypeId) (dt : Duration)
    (r : Except Unit (Option Arc)) :
    (setupWord n name kind f dt r).foldlM next .idle = some (afterSetup r) := by
  unfold setupWord
  rw [List.cons_append, List.foldlM_cons,
    next_recorded n name (q := .idle) (fun _ h => Stage.noConfusion h) Stage.noConfusion]
  simp only [Option.bind_eq_bind, Option.bind_some, List.foldlM_append,
    foldlM_singleWord (next_spawnSetup n f dt) (next_joinSetup n f r) (afterSetup_ne_closed r),
    List.foldlM_cons, next_recorded n name (afterSetup_ne_torn r) (afterSetup_ne_closed r)]
  rfl

theorem foldlM_testWord (n : NodeId) (name : Str) (a : Arc) (dt : Duration) (r : Except Unit Unit) :
    (testWord n name a dt r).foldlM next (.holding a) = some (.holding a) := by
  unfold testWord
  rw [List.cons_append, List.foldlM_cons,
    next_recorded n name (q := .holding a) (fun _ h => Stage.noConfusion h) Stage.noConfusion]
  simp only [Option.bind_eq_bind, Option.bind_some, List.foldlM_append,
    foldlM_singleWord (next_spawnTest n a dt) (next_joinTest n a r) Stage.noConfusion,
    List.foldlM_cons]
  rfl

theorem foldlM_teardownWord (n : NodeId) (name : Str) (dt : Duration) (r : Except Unit Unit) :
    (teardownWord n name dt r).foldlM next .released = some .closed := by
  unfold teardownWord
  rw [List.cons_append, List.foldlM_cons,
    next_recorded n name (q := .released) (fun _ h => Stage.noConfusion h) Stage.noConfusion]
  simp only [Option.bind_eq_bind, Option.bind_some, List.foldlM_append,
    foldlM_singleWord (next_spawnTeardown n dt) (next_joinTeardown n r) Stage.noConfusion,
    List.foldlM_cons, next_close]
  rfl

theorem foldlM_closeWord (n : NodeId) (name : Str) (f : Fixture) (dt : Duration)
    (r : Except Unit (Option Arc)) (down : Except Unit Unit) :
    (closeWord n name f dt r down).foldlM next (afterSetup r) = some .closed := by
  have hdown := foldlM_teardownWord n name (f.timeoutTeardown.getD dt) down
  rcases r with e | _ | a
  · exact hdown
  · exact hdown
  · change (⟨.drop n a, ()⟩ :: teardownWord n name _ down).foldlM next (.holding a) = _
    rw [List.foldlM_cons, next_drop]
    exact hdown

end Stage

/-- The stage of a node that has been set up. -/
theorem after_openWord (n : NodeId) (name : Str) (kind : Task) (f : Fixture) (dt : Duration)
    (r : Except Unit (Option Arc)) :
    Stage.after (openWord n name kind f dt r) = some (Stage.afterSetup r) := by
  unfold Stage.after openWord
  rw [List.foldlM_cons, Stage.next_enter n (q := .idle) Stage.noConfusion]
  exact Stage.foldlM_setupWord n name kind f.typeId (f.timeoutSetup.getD dt) r

/-- A span takes its node to the end. -/
theorem IsSpan.after {m : Node} {dt : Duration} {w : List OpCall} (h : IsSpan m dt w) :
    Stage.after w = some .closed := by
  obtain ⟨r, mid, down, rfl, hmid⟩ := h
  have hmid : mid.foldlM Stage.next (Stage.afterSetup r) = some (Stage.afterSetup r) := by
    obtain ⟨a, rfl, hmid⟩ | ⟨-, rfl⟩ := hmid
    · split at hmid
      · obtain ⟨timeout, body, rfl⟩ := hmid
        exact Stage.foldlM_testWord _ _ _ _ _
      · rw [hmid]
        rfl
    · rfl
  unfold spanWord
  rw [Stage.after_append, after_openWord, Option.bind_some, List.foldlM_append, hmid]
  exact Stage.foldlM_closeWord _ _ _ _ _ _

/-- The stage of a node after some operations of the runner. -/
def stage (w : List OpCall) (n : NodeId) : Stage := (Stage.after (proj n w)).getD .idle

theorem stage_congr {n : NodeId} {v w : List OpCall} (h : proj n v = proj n w) :
    stage v n = stage w n := by
  unfold stage
  rw [h]

theorem stage_of_nil {n : NodeId} {w : List OpCall} (h : proj n w = []) : stage w n = .idle := by
  unfold stage
  rw [h]
  rfl

@[simp] theorem stage_nil : stage [] = fun _ => .idle := funext fun _ => stage_of_nil rfl

theorem stage_of_span {m : Node} {dt : Duration} {w : List OpCall}
    (h : IsSpan m dt (proj m.id w)) : stage w m.id = .closed := by
  unfold stage
  rw [h.after]
  rfl

section Word

variable {config : Config} {g : Group} {s w : List OpCall}

/-- Every node goes through its stages in order. -/
theorem RunWord.after_isSome (hw : RunWord config g w) (hs : s <+: w) (n : NodeId) :
    (Stage.after (E2etest.proj n s)).isSome := by
  refine hw.foldlM_isSome (fun m v hspan => ?_) hs n
  change (Stage.after v).isSome
  rw [hspan.after]
  rfl

/-- A node that is done in a complete run is closed or has not begun. -/
theorem RunWord.stage_complete (hw : RunWord config g w) {m : Node} (hm : m ∈ g.nodes [] [])
    (h : E2etest.proj m.id s = E2etest.proj m.id w) :
    stage s m.id = .idle ∨ stage s m.id = .closed := by
  rcases hw.proj hm with hnil | hspan
  · exact Or.inl (stage_of_nil (h.trans hnil))
  · exact Or.inr (stage_of_span (h ▸ hspan))

end Word

/-- The node is between two stops. -/
def Moving (σ : NodeId → Stage) (n : NodeId) : Prop := (σ n).moving n.isTest = true

theorem not_moving_of_done {σ : NodeId → Stage} {n : NodeId} (h : σ n = .idle ∨ σ n = .closed) :
    ¬ Moving σ n := by
  rcases h with h | h <;> simp [Moving, h, Stage.moving]

/-! ## What one operation does -/

/-- What an operation does to the stage of its node and to the state. -/
inductive Advance : OpCall → Stage → State → Stage → State → Prop
  | enter {n : NodeId} {q : Stage} {s : State} (hc : q ≠ .closed) :
      Advance ⟨.enter n, ()⟩ q s q s
  | report {n : NodeId} {q : Stage} {s : State} (hc : q ≠ .closed) :
      Advance ⟨.report n, ()⟩ q s q { s with reports := s.reports ++ [(n, s.backtrace)] }
  | record {n : NodeId} {name : Str} {event : Event} {q : Stage} {s : State}
      {statistics : Statistics} (hq : ∀ r, q ≠ .torn r) (hc : q ≠ .closed)
      (h : s.statistics.record name event = some statistics) :
      Advance (recorded n name event) q s q { s with statistics }
  | spawnSetup {n : NodeId} {f : TypeId} {dt : Duration} {s : State} :
      Advance ⟨.spawn n (.setup f) dt, ()⟩ .idle s (.settingUp f) (s.setTask n (some (.setup f)))
  | joinSetup {n : NodeId} {f : TypeId} {r : Except Unit (Option Arc)} {s : State}
      (h : s.tasks n = some (.setupDone r)) :
      Advance ⟨.join n (.setup f), r⟩ (.settingUp f) s (.afterSetup r)
        ((s.setTask n none).setInner (s.takeOutput n r))
  | spawnTest {n : NodeId} {a : Arc} {dt : Duration} {s : State} :
      Advance ⟨.spawn n (.test a) dt, ()⟩ (.holding a) s (.testing a)
        ((s.setTask n (some .test)).setInner (s.inner.hold (.body n) a))
  | joinTest {n : NodeId} {a : Arc} {r : Except Unit Unit} {s : State}
      (h : s.tasks n = some (.testDone r)) :
      Advance ⟨.join n (.test a), r⟩ (.testing a) s (.holding a) (s.setTask n none)
  | drop {n : NodeId} {a : Arc} {s : State} :
      Advance ⟨.drop n a, ()⟩ (.holding a) s .released (s.setInner (s.inner.release (.node n)))
  | spawnTeardown {n : NodeId} {dt : Duration} {s : State} :
      Advance ⟨.spawn n .teardown dt, ()⟩ .released s .tearing (s.setTask n (some .teardown))
  | joinTeardown {n : NodeId} {r : Except Unit Unit} {s : State}
      (h : s.tasks n = some (.teardownDone r)) :
      Advance ⟨.join n .teardown, r⟩ .tearing s (.torn r) (s.setTask n none)
  | close {n : NodeId} {name : Str} {r : Except Unit Unit} {s : State} {statistics : Statistics}
      (h : s.statistics.record name (teardownEvent r) = some statistics) :
      Advance (recorded n name (teardownEvent r)) (.torn r) s .closed { s with statistics }

theorem advance_of_next {c : OpCall} {q q' : Stage} {s s' : State} (hq : q.next c = some q')
    (hs : s.call c = some s') : Advance c q s q' s' := by
  have hc : q ≠ .closed := fun he => by
    rw [he] at hq
    cases hq
  cases State.call_cases hs with
  | @enter n =>
    obtain rfl := Option.some.inj ((Stage.next_enter n hc).symm.trans hq)
    exact .enter hc
  | @report n =>
    obtain rfl := Option.some.inj ((Stage.next_report n hc).symm.trans hq)
    exact .report hc
  | @record n name event statistics hr =>
    by_cases ht : ∃ r, q = .torn r
    · obtain ⟨r, rfl⟩ := ht
      obtain ⟨rfl, hq'⟩ := Option.ite_none_right_eq_some.mp hq
      obtain rfl := Option.some.inj hq'
      exact .close hr
    · have hne : ∀ r, q ≠ .torn r := fun r hr => ht ⟨r, hr⟩
      obtain rfl := Option.some.inj ((Stage.next_recorded n name hne hc event).symm.trans hq)
      exact .record hne hc hr
  | spawnSetup =>
    cases q <;> try cases hq
    exact .spawnSetup
  | spawnTest =>
    cases q <;> try cases hq
    obtain ⟨rfl, hq'⟩ := Option.ite_none_right_eq_some.mp hq
    obtain rfl := Option.some.inj hq'
    exact .spawnTest
  | spawnTeardown =>
    cases q <;> try cases hq
    exact .spawnTeardown
  | joinSetup h =>
    cases q <;> try cases hq
    obtain ⟨rfl, hq'⟩ := Option.ite_none_right_eq_some.mp hq
    obtain rfl := Option.some.inj hq'
    exact .joinSetup h
  | joinTest h =>
    cases q <;> try cases hq
    obtain ⟨rfl, hq'⟩ := Option.ite_none_right_eq_some.mp hq
    obtain rfl := Option.some.inj hq'
    exact .joinTest h
  | joinTeardown h =>
    cases q <;> try cases hq
    exact .joinTeardown h
  | drop =>
    cases q <;> try cases hq
    obtain ⟨rfl, hq'⟩ := Option.ite_none_right_eq_some.mp hq
    obtain rfl := Option.some.inj hq'
    exact .drop

section Run

variable {G : FixtureGraph} {config : Config} {g : Group} {x y : Sys} {t : List Label}

/-- The stages after one more operation. -/
theorem stage_snoc {w : List OpCall} {c : OpCall} {q : Stage}
    (h : Stage.after (proj c.1.node (w ++ [c])) = some q) :
    (stage w c.1.node).next c = some q ∧
      stage (w ++ [c]) = Function.update (stage w) c.1.node q := by
  have hself : proj c.1.node (w ++ [c]) = proj c.1.node w ++ [c] := by simp [proj]
  rw [hself, Stage.after_append] at h
  obtain ⟨p, hp, hq⟩ := Option.bind_eq_some_iff.mp h
  have hp' : stage w c.1.node = p := by rw [stage, hp, Option.getD_some]
  refine ⟨?_, funext fun n => ?_⟩
  · rw [hp']
    simpa using hq
  · by_cases hn : n = c.1.node
    · subst hn
      rw [Function.update_self, stage, hself, Stage.after_append, h, Option.getD_some]
    · rw [Function.update_of_ne hn]
      refine stage_congr ?_
      simp [proj, Ne.symm hn]

/-- The run can be in this state after these labels. -/
def At (G : FixtureGraph) (x : Sys) (t : List Label) (s : State) : Prop :=
  ∃ p, Sys.Run G x t ⟨p, s⟩

/-- One label, as a step of the stages and the state. -/
inductive Joint (G : FixtureGraph) (σ : NodeId → Stage) (s : State) :
    Label → (NodeId → Stage) → State → Prop
  | call {c : OpCall} {q : Stage} {s' : State} (h : Advance c (σ c.1.node) s q s') :
      Joint G σ s (.call c) (Function.update σ c.1.node q) s'
  | act {a : Act} {s' : State} (h : State.ActStep G s a s') : Joint G σ s (.act a) σ s'

/-- A visible step of a run is a step of the stages and the state. -/
theorem joint_of_step {z : Sys} {l : Label} (hx : run config g = some x) (h : Sys.Run G x t y)
    (hs : Sys.Step G y (some l) z) :
    Joint G (stage (calls t)) y.state l (stage (calls (t ++ [l]))) z.state := by
  have hrun := h.tail hs
  cases hs with
  | @call p q s s' c hp hc =>
    obtain ⟨w, hw, hpre⟩ := run_prefix hx hrun
    obtain ⟨q', hq'⟩ := Option.isSome_iff_exists.mp (hw.after_isSome hpre c.1.node)
    have hcalls : calls (t ++ [Label.call c]) = calls t ++ [c] := by simp
    change Stage.after (proj c.1.node (calls (t ++ [Label.call c]))) = some q' at hq'
    rw [hcalls] at hq' ⊢
    obtain ⟨hnext, hstage⟩ := stage_snoc hq'
    rw [hstage]
    exact .call (advance_of_next hnext hc)
  | @act p s s' a ha =>
    have hcalls : calls (t ++ [Label.act a]) = calls t := by simp
    rw [hcalls]
    exact .act (State.act_cases ha)

/-- **The invariant rule.** What holds at first and is kept by each step of the stages and the state
holds at every point of every run. -/
theorem invariant_of_run {P : List Label → State → Prop} (hx : run config g = some x)
    (hinit : P [] x.state)
    (hstep : ∀ {t : List Label} {l : Label} {s s' : State}, At G x t s → At G x (t ++ [l]) s' →
      Joint G (stage (calls t)) s l (stage (calls (t ++ [l]))) s' → P t s → P (t ++ [l]) s')
    (h : Sys.Run G x t y) : P t y.state := by
  induction h with
  | refl => exact hinit
  | @tail t y z l hrun hs ih =>
    cases l with
    | none =>
      cases hs
      simpa using ih
    | some l => exact hstep ⟨_, hrun⟩ ⟨_, hrun.tail hs⟩ (joint_of_step hx hrun hs) ih

/-- A node outside the tree never begins. -/
theorem stage_outside (hx : run config g = some x) (h : Sys.Run G x t y) {n : NodeId}
    (hn : ∀ m ∈ g.nodes [] [], m.id ≠ n) : stage (calls t) n = .idle := by
  obtain ⟨w, hw, hpre⟩ := run_prefix hx h
  refine stage_of_nil (proj_eq_nil fun c hc he => ?_)
  obtain ⟨m, hm, hid⟩ := hw.nodes c (hpre.subset hc)
  exact hn m hm (hid.trans he)

/-- While something below a group moves, the group holds its fixture. -/
theorem holding_of_nested {w s : List OpCall} (hw : RunWord config g w) (hs : s <+: w) {p m : Node}
    (hm : m ∈ g.nodes [] []) (hne : p.id ≠ m.id) {dt : Duration} (h : Nested p m.id dt w)
    (hmm : Moving (stage s) m.id) : ∃ a, stage s p.id = .holding a := by
  obtain hnil | ⟨a, down, hspan⟩ := h
  · refine absurd hmm (not_moving_of_done (Or.inl (stage_of_nil ?_)))
    exact List.prefix_nil.mp (hnil ▸ proj_mono hs)
  have hpre : proj₂ p.id m.id s <+: proj₂ p.id m.id w := hs.filter _
  rw [hspan] at hpre
  have hopen := owned_openWord p.id p.path .group p.fixture dt (.ok (some a))
  have hprojp : proj p.id s = proj p.id (proj₂ p.id m.id s) := (proj_proj₂ _ _ _).symm
  have hprojm : proj m.id s = proj m.id (proj₂ p.id m.id s) := by
    rw [proj₂_comm, proj_proj₂]
  rcases prefix_append_cases hpre with hpre | ⟨s₁, hs₁, hpre₁⟩
  · -- the group is still being set up
    refine absurd hmm (not_moving_of_done (Or.inl (stage_of_nil ?_)))
    rw [hprojm]
    exact proj_eq_nil fun c hc he => hne ((hopen c (hpre.subset hc)).symm.trans he)
  rcases prefix_append_cases hpre₁ with hpre₁ | ⟨s₂, rfl, -⟩
  · -- the group holds its fixture
    have hinside : proj p.id s₁ = [] := proj_eq_nil fun c hc he =>
      hne (he.symm.trans (mem_proj.mp (hpre₁.subset hc)).2)
    refine ⟨a, ?_⟩
    rw [stage, hprojp, hs₁, proj_append, hinside, List.append_nil, hopen.proj_self,
      after_openWord]
    rfl
  · -- what is below the group is done
    refine absurd hmm (not_moving_of_done (hw.stage_complete hm ?_))
    refine (proj_mono hs).eq_of_length_le ?_
    have hself : proj m.id (proj m.id w) = proj m.id w :=
      Owned.proj_self fun c hc => (mem_proj.mp hc).2
    rw [hprojm, hs₁, proj_append, proj_append, hself, List.length_append, List.length_append]
    omega

/-- While a group moves, nothing below it does. -/
theorem not_both_moving_of_nested {w s : List OpCall} (hw : RunWord config g w) (hs : s <+: w)
    {p m : Node} (hm : m ∈ g.nodes [] []) (hne : p.id ≠ m.id) (hp : p.id.isTest = false)
    {dt : Duration} (h : Nested p m.id dt w) :
    ¬ (Moving (stage s) p.id ∧ Moving (stage s) m.id) := by
  rintro ⟨hmp, hmm⟩
  obtain ⟨a, ha⟩ := holding_of_nested hw hs hm hne h hmm
  simp [Moving, ha, Stage.moving, hp] at hmp

/-- **The root holds its fixture while any other node does anything.** -/
theorem root_holding (hx : run config g = some x) (h : Sys.Run G x t y) {n : NodeId}
    (hn : n ≠ .group []) (hm : Moving (stage (calls t)) n) :
    ∃ a, stage (calls t) (.group []) = .holding a := by
  obtain ⟨w, hw, hpre⟩ := run_prefix hx h
  by_cases hnt : ∃ k ∈ g.nodes [] [], k.id = n
  swap
  · exact absurd hm (not_moving_of_done (Or.inl (stage_outside hx h fun k hk he => hnt ⟨k, hk, he⟩)))
  obtain ⟨n, hnode, rfl⟩ := hnt
  have henc : NodeId.Encloses (.group []) n.id := by
    rcases Group.eq_or_encloses hnode with rfl | ⟨-, henc⟩
    · exact absurd rfl hn
    · exact henc
  cases hw.related (Group.rootNode_mem [] [] g) hnode hn.symm with
  | outer _ hnest => exact holding_of_nested hw hpre hnode hn.symm hnest hm
  | inner h _ => exact absurd h (NodeId.not_encloses_symm henc)
  | apart h _ _ => exact absurd henc h
  | parallel h _ => exact Bool.noConfusion h.left

/-- **While a group sets up or tears down, no other node does anything.** -/
theorem not_both_moving (hx : run config g = some x) (h : Sys.Run G x t y) {n m : NodeId}
    (hne : n ≠ m) (hn : n.isTest = false) :
    ¬ (Moving (stage (calls t)) n ∧ Moving (stage (calls t)) m) := by
  obtain ⟨w, hw, hpre⟩ := run_prefix hx h
  by_cases hnt : ∃ k ∈ g.nodes [] [], k.id = n
  swap
  · have hidle := stage_outside hx h fun k hk he => hnt ⟨k, hk, he⟩
    exact fun hb => not_moving_of_done (Or.inl hidle) hb.1
  by_cases hmt : ∃ k ∈ g.nodes [] [], k.id = m
  swap
  · have hidle := stage_outside hx h fun k hk he => hmt ⟨k, hk, he⟩
    exact fun hb => not_moving_of_done (Or.inl hidle) hb.2
  obtain ⟨n, hnode, rfl⟩ := hnt
  obtain ⟨m, hmode, rfl⟩ := hmt
  cases hw.related hnode hmode hne with
  | outer _ hnest => exact not_both_moving_of_nested hw hpre hmode hne hn hnest
  | inner henc hnest =>
    rw [and_comm]
    exact not_both_moving_of_nested hw hpre hnode hne.symm henc.isTest_left hnest
  | apart _ _ ha =>
    rintro ⟨hmn, hmm⟩
    have hdone : ∀ {k l : NodeId}, k ≠ l → (∃ j ∈ g.nodes [] [], j.id = k) →
        proj₂ k l w = proj k w ++ proj l w → Moving (stage (calls t)) k →
          Moving (stage (calls t)) l → False := by
      rintro k l hkl ⟨j, hj, rfl⟩ hw₂ hmk hml
      rcases proj_of_before hkl hw₂ hpre with hnil | hall
      · exact not_moving_of_done (Or.inl (stage_of_nil hnil)) hml
      · exact not_moving_of_done (hw.stage_complete hj hall) hmk
    rcases ha with ha | ha
    · exact hdone hne ⟨n, hnode, rfl⟩ ha hmn hmm
    · rw [proj₂_comm] at ha
      exact hdone hne.symm ⟨m, hmode, rfl⟩ ha hmm hmn
  | parallel hp =>
    rw [hp.left] at hn
    cases hn

end Run

end E2etest
