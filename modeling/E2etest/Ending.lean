import E2etest.Async.Ends
import E2etest.Asserts
import E2etest.Drive
import E2etest.Settling
import E2etest.Sweep
import Mathlib.Tactic.Ring

/-!
# Every run ends

`Sys.left` is what a run has left to do: the steps of the runner, and for each node those of its
task. Every step makes it less (`left_of_step`), except that the body of a test may clone an `Arc`
it can get at, as often as it likes. So a run that goes on for ever only clones in the end
(`run_ends`).

Nor does a run get stuck. A task waits for the lock only while another task is inside the manager,
and a pass meets only keys that are in the cache (`PassesFit`), so there is always a step, whatever
user code does, and although no timeout strikes (`run_goes_on`). From every point of every run, with
every user code, the run can therefore be brought to its end (`run_returns`).
-/

namespace E2etest

open Async Text Prog Relation

/-! ## What is left to do -/

/-- What a task has left to do, while the cache has `c` fixtures: how often it goes in or out of the
manager, and how long the sweep it is in may last. -/
def TaskState.left (c : Nat) : TaskState → Nat × Nat
  | .setup _ | .teardown => (2, 0)
  | .setupLocked _ | .test => (1, 0)
  | .sweep pending false => (1, c * (c + 5) + pending.length + 1)
  | .sweep pending true => (1, c * (c + 5) + pending.length + c + 3)
  | .extracted pending _ => (1, c * (c + 5) + pending.length + c + 5)
  | .tearing pending _ => (1, c * (c + 5) + pending.length + c + 4)
  | .setupDone _ | .testDone _ | .teardownDone _ => (0, 0)

/-- Less is left. -/
abbrev Less : Nat × Nat → Nat × Nat → Prop := Prod.Lex (· < ·) (· < ·)

/-- Only a task inside the manager looks at the cache. -/
theorem TaskState.left_congr {t : TaskState} (h : t.locked = false) (c d : Nat) :
    t.left c = t.left d := by
  cases t <;> first | rfl | cases h

/-- A pass that has taken a fixture is nearer to its end, although another one will follow. -/
theorem pass_lt {c p : Nat} (hp : 0 < p) :
    c * (c + 5) + (p - 1) + c + 5 < (c + 1) * (c + 1 + 5) + p + 1 := by
  have h : (c + 1) * (c + 1 + 5) = c * (c + 5) + 2 * c + 6 := by ring
  omega

namespace State

/-- What the task of a node has left to do. -/
def left (s : State) (n : NodeId) : Nat × Nat :=
  match s.tasks n with
  | some t => t.left s.inner.cache.keys.length
  | none => (0, 0)

theorem left_eq {s : State} {n : NodeId} {t : TaskState} (h : s.tasks n = some t) :
    s.left n = t.left s.inner.cache.keys.length := by
  unfold left
  rw [h]

variable {G : FixtureGraph} {s s' : State} {n : NodeId} {a : Act}

/-- A fixture that is taken leaves the cache, and its key the pass. -/
theorem length_erase_keys {f : TypeId} {b : Arc} (hf : s.inner.cache.lookup f = some b) :
    s.inner.cache.keys.length = (s.inner.extract f).cache.keys.length + 1 := by
  change _ = (s.inner.cache.erase f).keys.length + 1
  rw [AList.keys_erase, List.length_erase_of_mem (mem_keys_of_lookup hf)]
  have := List.length_pos_of_mem (mem_keys_of_lookup hf)
  omega

/-- **A step of a task leaves it less to do**, unless the body of a test clones. -/
theorem ActStep.left_lt (h : ActStep G s a s') (hc : ∀ m b, a ≠ .clone m b) :
    Less (s'.left a.node) (s.left a.node) := by
  suffices hlt : ∃ t t', s.tasks a.node = some t ∧ s'.tasks a.node = some t' ∧
      Less (t'.left s'.inner.cache.keys.length) (t.left s.inner.cache.keys.length) by
    obtain ⟨t, t', ht, ht', hlt⟩ := hlt
    rwa [left_eq ht, left_eq ht']
  cases h with
  | clone _ _ => exact absurd rfl (hc _ _)
  | lockSetup ht _ | lockTeardown ht _ | sweepEnd ht =>
    exact ⟨_, _, ht, setTask_self _ _ _, .left _ _ (by decide)⟩
  | setup ht _ _ =>
    exact ⟨_, _, ht, (congrFun (setupPanicked_tasks _ _ _) _).trans (setTask_self _ _ _),
      .left _ _ Nat.zero_lt_one⟩
  | cancelSetup ht _ | testEnd ht | cancelTeardown ht _ | unwrapFails ht _ | teardownFails ht =>
    exact ⟨_, _, ht, (congrFun (panicked_tasks _ _ _) _).trans (setTask_self _ _ _),
      .left _ _ (by decide)⟩
  | @take n f pending foundAny b ht hf hp _ =>
    refine ⟨_, _, ht, setTask_self _ _ _, ?_⟩
    have hlt := pass_lt (c := (s.inner.extract f).cache.keys.length) (List.length_pos_of_mem hp)
    rw [← length_erase_keys hf, ← List.length_erase_of_mem hp] at hlt
    cases foundAny with
    | false => exact .right _ hlt
    | true => exact .right _ (hlt.trans_le (by omega))
  | @keep n f pending foundAny b ht _ hp _ =>
    refine ⟨_, _, ht, setTask_self _ _ _, ?_⟩
    have hlen := List.length_erase_of_mem hp
    have hpos := List.length_pos_of_mem hp
    cases foundAny <;>
    · refine .right _ ?_
      simp only [setTask_inner]
      omega
  | unwrap ht _ | teardownEnd ht =>
    exact ⟨_, _, ht, setTask_self _ _ _, .right _ (Nat.lt_succ_self _)⟩
  | nextPass ht =>
    refine ⟨_, _, ht, setTask_self _ _ _, .right _ ?_⟩
    simp only [setTask_inner, List.length_nil]
    omega

/-- A clone leaves what it left. -/
theorem left_clone {m : NodeId} {b : Arc} (h : ActStep G s (.clone m b) s') (n : NodeId) :
    s'.left n = s.left n := by
  cases h
  rfl

/-- A step of a task leaves the cache alone, unless the task is inside the manager. -/
theorem ActStep.cache (h : ActStep G s a s') :
    s'.inner.cache = s.inner.cache ∨ holdsLock (s.tasks a.node) = true := by
  cases h with
  | lockSetup _ _ | clone _ _ | lockTeardown _ _ | keep _ _ _ _ | unwrap _ _ | teardownEnd _
  | nextPass _ | sweepEnd _ => exact Or.inl rfl
  | cancelSetup _ _ | testEnd _ | unwrapFails _ _ | teardownFails _ | cancelTeardown _ _ =>
    refine Or.inl ?_
    rw [panicked_inner]
    rfl
  | setup ht _ _ | take ht _ _ _ =>
    refine Or.inr ?_
    unfold Act.node
    rw [ht]
    rfl

/-- A step of a task leaves the other ones what they had to do. -/
theorem ActStep.left_ne (h : ActStep G s a s') (hl : s.Locked) (hn : n ≠ a.node) :
    s'.left n = s.left n := by
  unfold left
  rw [h.tasks_ne hn]
  cases ht : s.tasks n with
  | none => rfl
  | some t =>
    rcases h.cache with hc | hlock
    · simp only [hc]
    · refine TaskState.left_congr ?_ _ _
      have hother : s.lock ≠ some n := fun he =>
        hn (Option.some.inj (he.symm.trans ((hl a.node).mpr hlock)))
      have hno : ¬ holdsLock (s.tasks n) = true := fun hh => hother ((hl n).mpr hh)
      rw [ht] at hno
      exact Bool.eq_false_of_not_eq_true hno

end State

/-! ## A run ends -/

/-- What a run on a tree has left to do. -/
def Sys.left (g : Group) (x : Sys) : Future Unit × List (Nat × Nat) :=
  (x.prog, ((g.nodes [] []).map Node.id).map x.state.left)

/-- A step of the runner, or else one of a task, leaves less to do. -/
def Sys.LeavesLess : Future Unit × List (Nat × Nat) → Future Unit × List (Nat × Nat) → Prop :=
  Prod.Lex After (Chip Less)

theorem Sys.leavesLess_wellFounded : WellFounded Sys.LeavesLess :=
  steps_wellFounded.prod_lex (chip_wellFounded (wellFounded_lt.prod_lex wellFounded_lt))

/-- The body of a test clones an `Arc`. -/
def Label.Clones (l : Option Label) : Prop := ∃ n a, l = some (.act (.clone n a))

section Run

variable {G : FixtureGraph} {config : Config} {g : Group} {x y z : Sys} {t : List Label}

/-- A task is one of a node of the tree. -/
theorem exists_node_of_task (hx : run config g = some x) (h : Sys.Run G x t y) {n : NodeId}
    {τ : TaskState} (ht : y.state.tasks n = some τ) : n ∈ (g.nodes [] []).map Node.id := by
  by_contra hno
  have hidle := stage_outside hx h (n := n) fun m hm he => hno (List.mem_map.mpr ⟨m, hm, he⟩)
  have hfits := (sound_of_run hx h).held.task n
  rw [hidle] at hfits
  rw [hfits.eq_none rfl] at ht
  cases ht

/-- **A step of a run leaves less to do, or is a clone**, which leaves what it left. -/
theorem left_of_step (hx : run config g = some x) (h : Sys.Run G x t y) {l : Option Label}
    (hs : Sys.Step G y l z) :
    Sys.LeavesLess (z.left g) (y.left g) ∨ z.left g = y.left g ∧ Label.Clones l := by
  cases hs with
  | schedule hp => exact Or.inl (.left _ _ ⟨_, hp⟩)
  | call hp _ => exact Or.inl (.left _ _ ⟨_, hp⟩)
  | @act p s s' a ha =>
    have hact := State.act_cases ha
    by_cases hc : ∃ n b, a = .clone n b
    · obtain ⟨n, b, rfl⟩ := hc
      have hsame : s'.left = s.left := funext (State.left_clone hact)
      refine Or.inr ⟨?_, n, b, rfl⟩
      unfold Sys.left
      rw [hsame]
    · obtain ⟨τ, hτ⟩ := exists_task hact
      have hlocked := (sound_of_run hx h).owned.locked
      refine Or.inl (.right _ ?_)
      exact chip_map (Group.nodes_ids_nodup [] [] g) (exists_node_of_task hx h hτ)
        (hact.left_lt fun m b he => hc ⟨m, b, he⟩) fun n hn => hact.left_ne hlocked hn

end Run

/-! ## A run does not get stuck -/

/-- The keys a sweep has not met yet. -/
def TaskState.pending : TaskState → List TypeId
  | .sweep pending _ | .extracted pending _ | .tearing pending _ => pending
  | _ => []

theorem TaskState.pending_of_not_locked {τ : TaskState} (h : τ.locked = false) :
    τ.pending = [] := by
  cases τ <;> first | rfl | cases h

/-- A pass has every key it has not met in the cache, once. -/
def State.PassesFit (s : State) : Prop :=
  ∀ n τ, s.tasks n = some τ → τ.pending.Nodup ∧ ∀ f ∈ τ.pending, f ∈ s.inner.cache

namespace State

variable {G : FixtureGraph} {s s' : State} {n : NodeId}

theorem PassesFit.congr (h : s.PassesFit) (ht : ∀ n τ, s'.tasks n = some τ →
    s.tasks n = some τ ∨ τ.pending = []) (hc : s'.inner.cache = s.inner.cache) :
    s'.PassesFit := by
  intro n τ hτ
  rcases ht n τ hτ with hτ | hnil
  · rw [hc]
    exact h n τ hτ
  · rw [hnil]
    exact ⟨List.nodup_nil, fun f hf => absurd hf List.not_mem_nil⟩

/-- The task of one node changes. -/
theorem PassesFit.setTask (h : s.PassesFit) {t : Option TaskState}
    (ht : s'.tasks = (s.setTask n t).tasks) (hnil : ∀ τ, t = some τ → τ.pending = [])
    (hc : s'.inner.cache = s.inner.cache) : s'.PassesFit := by
  refine h.congr (fun m τ hτ => ?_) hc
  rw [ht, setTask_tasks] at hτ
  split at hτ
  · exact Or.inr (hnil τ hτ)
  · exact Or.inl hτ

theorem PassesFit.call (h : s.PassesFit) {c : OpCall} (hs : CallStep s c s') : s'.PassesFit := by
  cases hs with
  | enter => exact h
  | record _ | report | drop => exact h.congr (fun _ _ hτ => Or.inl hτ) rfl
  | spawnSetup | spawnTest | spawnTeardown | joinTest _ | joinTeardown _ =>
    refine h.setTask rfl ?_ rfl
    rintro τ ⟨⟩
    try rfl
  | @joinSetup n f r _ =>
    refine h.setTask rfl (fun τ hτ => by cases hτ) ?_
    rcases r with e | _ | a <;> rfl

/-- The task that takes a step has a pass that fits, or none. -/
theorem ActStep.pass_fits {a : Act} (hs : ActStep G s a s') (h : s.PassesFit) {τ : TaskState}
    (hτ : s'.tasks a.node = some τ) : τ.pending.Nodup ∧ ∀ f ∈ τ.pending, f ∈ s'.inner.cache := by
  have hnil : ∀ {τ'}, some τ' = some τ → τ'.pending = [] →
      τ.pending.Nodup ∧ ∀ f ∈ τ.pending, f ∈ s'.inner.cache := by
    rintro τ' he hp
    obtain rfl := Option.some.inj he
    rw [hp]
    exact ⟨List.nodup_nil, fun f hf => absurd hf List.not_mem_nil⟩
  have hkeys : ∀ {b}, some (.sweep s.inner.cache.keys b) = some τ →
      s'.inner.cache = s.inner.cache →
      τ.pending.Nodup ∧ ∀ f ∈ τ.pending, f ∈ s'.inner.cache := by
    rintro b he hc
    obtain rfl := Option.some.inj he
    rw [hc]
    exact ⟨s.inner.cache.keys_nodup, fun f hf => AList.mem_keys.mpr hf⟩
  unfold Act.node at hτ
  cases hs with
  | clone ht _ => exact h _ τ hτ
  | lockSetup _ _ => exact hnil ((setTask_self _ _ _).symm.trans hτ) rfl
  | setup _ _ _ =>
    rw [setupPanicked_tasks] at hτ
    exact hnil ((setTask_self _ _ _).symm.trans hτ) rfl
  | cancelSetup _ _ | testEnd _ | unwrapFails _ _ | teardownFails _ | cancelTeardown _ _ =>
    rw [panicked_tasks] at hτ
    exact hnil ((setTask_self _ _ _).symm.trans hτ) rfl
  | sweepEnd _ => exact hnil ((setTask_self _ _ _).symm.trans hτ) rfl
  | lockTeardown _ _ | nextPass _ => exact hkeys ((setTask_self _ _ _).symm.trans hτ) rfl
  | @take n f pending foundAny b ht _ _ _ =>
    obtain rfl := Option.some.inj ((setTask_self _ _ _).symm.trans hτ)
    obtain ⟨hnd, hp⟩ := h n _ ht
    refine ⟨hnd.erase f, fun g hg => ?_⟩
    obtain ⟨hne, hmem⟩ := hnd.mem_erase_iff.mp hg
    exact AList.mem_erase.mpr ⟨hne, hp g hmem⟩
  | @keep n f pending foundAny b ht _ _ _ =>
    obtain rfl := Option.some.inj ((setTask_self _ _ _).symm.trans hτ)
    obtain ⟨hnd, hp⟩ := h n _ ht
    exact ⟨hnd.erase f, fun g hg => hp g (List.mem_of_mem_erase hg)⟩
  | unwrap ht _ | teardownEnd ht =>
    obtain rfl := Option.some.inj ((setTask_self _ _ _).symm.trans hτ)
    have hfits := h _ _ ht
    exact hfits

theorem PassesFit.act {a : Act} (h : s.PassesFit) (hl : s.Locked) (hs : ActStep G s a s') :
    s'.PassesFit := by
  intro m τ hτ
  by_cases hm : m = a.node
  · subst hm
    exact hs.pass_fits h hτ
  · rw [hs.tasks_ne hm] at hτ
    rcases hs.cache with hc | hlock
    · rw [hc]
      exact h m τ hτ
    · -- the other task is outside, so it is in no pass
      have hno : ¬ holdsLock (s.tasks m) = true := fun hh =>
        hm (Option.some.inj (((hl m).mpr hh).symm.trans ((hl a.node).mpr hlock)))
      rw [hτ] at hno
      rw [TaskState.pending_of_not_locked (Bool.eq_false_of_not_eq_true hno)]
      exact ⟨List.nodup_nil, fun f hf => absurd hf List.not_mem_nil⟩

end State

/-- What user code does, in each state, when it has its turn. -/
structure UserCode (G : FixtureGraph) where
  /-- The setup of a fixture, for the task of a node. -/
  setup : State → NodeId → TypeId → Script
  respects : ∀ s n f, (setup s n f).respects G f = true
  /-- The body of a test. -/
  body : State → NodeId → Except Unit Unit
  /-- The teardown of a fixture. -/
  teardown : State → Arc → Except Unit Unit

/-- What user code does in a state. -/
def UserCode.scenario {G : FixtureGraph} (u : UserCode G) (s : State) : Scenario where
  script n :=
    match s.tasks n with
    | some (.setupLocked f) => u.setup s n f
    | _ => .skip
  body := u.body s
  teardown := u.teardown s

/-- The step is one the task takes by itself: no timeout strikes, and user code does what it does
and ends. -/
def UserCode.Takes {G : FixtureGraph} (u : UserCode G) (s : State) : Option Label → Prop
  | some (.act a) => Sys.taskStep (u.scenario s) s a.node = some a
  | _ => True

/-- The task has ended. -/
def TaskState.done : TaskState → Bool
  | .setupDone _ | .testDone _ | .teardownDone _ => true
  | _ => false

namespace State

variable {G : FixtureGraph} {s : State} {n : NodeId} {τ : TaskState}

/-- A task inside the manager can take its step. -/
theorem takes_of_locked (u : UserCode G) (hp : s.PassesFit) (hτ : s.tasks n = some τ)
    (hlocked : τ.locked = true) :
    ∃ a, Sys.taskStep (u.scenario s) s n = some a ∧ a.node = n ∧ (s.act G a).isSome := by
  unfold Sys.taskStep
  rw [hτ]
  cases τ with
  | setupLocked f =>
    have hscript : (u.scenario s).script n = u.setup s n f := by
      unfold UserCode.scenario
      simp only [hτ]
    refine ⟨_, rfl, rfl, ?_⟩
    simp [act, hτ, hscript, u.respects s n f]
  | sweep pending foundAny =>
    cases pending with
    | nil => cases foundAny <;> exact ⟨_, rfl, rfl, by simp [act, hτ]⟩
    | cons f pending =>
      have hmem := (hp n _ hτ).2 f List.mem_cons_self
      obtain ⟨a, ha⟩ := Option.isSome_iff_exists.mp (AList.lookup_isSome.mpr hmem)
      refine ⟨_, rfl, rfl, ?_⟩
      by_cases h1 : s.inner.strongCount a = 1 <;> simp [act, hτ, ha, h1]
  | extracted pending a =>
    refine ⟨_, rfl, rfl, ?_⟩
    by_cases h1 : s.inner.strongCount a = 1 <;> simp [act, hτ, h1]
  | tearing pending a =>
    refine ⟨_, rfl, rfl, ?_⟩
    rcases hr : (u.scenario s).teardown a with e | v <;> simp [act, hτ]
  | _ => cases hlocked

/-- **A task that has not ended can go on, or the one it waits for can.** -/
theorem exists_takes (u : UserCode G) (hl : s.Locked) (hp : s.PassesFit)
    (hτ : s.tasks n = some τ) (hdone : τ.done = false) :
    ∃ a, Sys.taskStep (u.scenario s) s a.node = some a ∧ (s.act G a).isSome := by
  suffices h : ∃ m a, Sys.taskStep (u.scenario s) s m = some a ∧ a.node = m ∧
      (s.act G a).isSome by
    obtain ⟨m, a, ha, rfl, hs⟩ := h
    exact ⟨a, ha, hs⟩
  cases hlock : s.lock with
  | some m =>
    have hheld := (hl m).mp hlock
    cases hm : s.tasks m with
    | none => rw [hm] at hheld; cases hheld
    | some τ' =>
      rw [hm] at hheld
      exact ⟨m, takes_of_locked u hp hm hheld⟩
  | none =>
    refine ⟨n, ?_⟩
    by_cases hlocked : τ.locked = true
    · exact takes_of_locked u hp hτ hlocked
    · unfold Sys.taskStep
      rw [hτ]
      cases τ with
      | setup f | teardown | test => exact ⟨_, rfl, rfl, by simp [act, hτ, hlock]⟩
      | setupLocked _ | sweep _ _ | extracted _ _ | tearing _ _ => exact absurd rfl hlocked
      | setupDone _ | testDone _ | teardownDone _ => cases hdone

end State

section Run

variable {G : FixtureGraph} {config : Config} {g : Group} {x y z : Sys} {t : List Label}

/-- A pass of a run has every key it has not met in the cache. -/
theorem passesFit_of_run (hx : run config g = some x) (h : Sys.Run G x t y) :
    y.state.PassesFit := by
  induction h with
  | refl =>
    obtain ⟨statistics, hinit⟩ := init_of_run hx
    rw [hinit]
    intro n τ hτ
    cases hτ
  | @tail t y z l hrun hs ih =>
    cases hs with
    | schedule _ => exact ih
    | call _ hc => exact ih.call (State.call_cases hc)
    | act ha => exact ih.act (sound_of_run hx hrun).owned.locked (State.act_cases ha)

/-- What the runner awaits goes on the word of a complete run. -/
theorem completes_of_await (hx : run config g = some x) (h : Sys.Run G x t y) {c : OpCall}
    {q : Future Unit} (hq : Prog.Step y.prog (some c) q) : x.state.statistics.included ≠ ∅ ∧
      ∃ v, Prog.Completes (runGroup [] [] (config.context g) g) (calls t ++ [c] ++ v) () := by
  have hexec := (Sys.run_split h).1.snoc hq
  obtain ⟨-, hp⟩ | ⟨hne, hp⟩ := (run_spec hx).2.2.2 <;> rw [hp] at hexec
  · exact absurd (exec_pure hexec).1 (by simp)
  · obtain ⟨v, ⟨⟩, hv⟩ := hexec.extends Op.nonempty_result
    exact ⟨hne, v, hv⟩

/-- What the runner awaits fits the stage of the node. -/
theorem next_of_await (hx : run config g = some x) (h : Sys.Run G x t y) {c : OpCall}
    {q : Future Unit} (hq : Prog.Step y.prog (some c) q) :
    ((stage (calls t) c.1.node).next c).isSome := by
  obtain ⟨-, v, hv⟩ := completes_of_await hx h hq
  have hw : RunWord config g (calls t ++ [c] ++ v) := Or.inr hv
  obtain ⟨q', hq'⟩ :=
    Option.isSome_iff_exists.mp (hw.after_isSome (List.prefix_append _ v) c.1.node)
  rw [(stage_snoc hq').1]
  rfl

/-- What the runner records is admitted, where the nodes that do something are covered. -/
theorem not_assertFails (hx : run config g = some x) (hcov : x.state.statistics.included ≠ ∅ →
      ∀ w, Prog.Completes (runGroup [] [] (config.context g) g) w () →
        ∀ m ∈ g.nodes [] [], proj m.id w ≠ [] → Covered g x.state.statistics.included m)
    (h : Sys.Run G x t y) : ¬ y.AssertFails := by
  rintro ⟨n, name, event, q, hq, hnone⟩
  obtain ⟨hne, v, hv⟩ := completes_of_await hx h hq
  have hmem : recorded n name event ∈ calls t ++ [recorded n name event] ++ v := by simp
  have hadmit := admits_runWord hv (hcov hne _ hv) hmem
  have hsel := RunWord.not_isSelection (Or.inr hv) _ hmem
  rw [← (run_statistics hx h).1] at hadmit
  refine (record_eq_none_iff ?_ ?_).mp hnone hadmit <;>
  · rintro rfl
    cases hsel

/-- A task that is awaited has ended, or has something to do. -/
theorem join_or_task {s : State} {n : NodeId} {job : Job} {q : Stage}
    (hnext : ∀ r, (q.next ⟨.join n job, r⟩).isSome) (hfits : Fits q (s.tasks n)) :
    (∃ r, (s.call ⟨.join n job, r⟩).isSome) ∨ ∃ τ, s.tasks n = some τ ∧ τ.done = false := by
  generalize hτ : s.tasks n = τ at hfits
  cases job with
  | setup f =>
    have hq := hnext (.error ())
    cases q <;> try cases hq
    cases hfits with
    | setup | setupLocked => exact Or.inr ⟨_, rfl, rfl⟩
    | @setupDone _ r => exact Or.inl ⟨r, by simp [State.call, hτ]⟩
  | test a =>
    have hq := hnext (.error ())
    cases q <;> try cases hq
    cases hfits with
    | test => exact Or.inr ⟨_, rfl, rfl⟩
    | @testDone _ r => exact Or.inl ⟨r, by simp [State.call, hτ]⟩
  | teardown =>
    have hq := hnext (.error ())
    cases q <;> try cases hq
    cases hfits with
    | teardown | sweep | extracted | tearing => exact Or.inr ⟨_, rfl, rfl⟩
    | @teardownDone r => exact Or.inl ⟨r, by simp [State.call, hτ]⟩

/-- **No run gets stuck.** It has returned, or is about to fail an assertion, or there is a step in
which user code does what it does and no timeout strikes. -/
theorem run_goes_on (hx : run config g = some x) (u : UserCode G) (h : Sys.Run G x t y) :
    y.prog = .pure () ∨ y.AssertFails ∨ ∃ l z, Sys.Step G y l z ∧ u.Takes y.state l := by
  obtain ⟨p, s⟩ := y
  have hsound := sound_of_run hx h
  rcases Prog.progress p with ⟨⟨⟩, rfl⟩ | ⟨q, hq⟩ | ⟨op, hop⟩
  · exact Or.inl rfl
  · exact Or.inr (Or.inr ⟨_, _, .schedule hq, trivial⟩)
  · have hcall : ∀ {r}, (s.call ⟨op, r⟩).isSome →
        ∃ l z, Sys.Step G ⟨p, s⟩ l z ∧ u.Takes s l := by
      intro r hr
      obtain ⟨s', hs'⟩ := Option.isSome_iff_exists.mp hr
      obtain ⟨q, hq⟩ := hop r
      exact ⟨_, _, .call hq hs', trivial⟩
    cases op with
    | record n name event =>
      cases hrec : s.statistics.record name event with
      | none =>
        obtain ⟨q, hq⟩ := hop ()
        exact Or.inr (Or.inl ⟨n, name, event, q, hq, hrec⟩)
      | some statistics =>
        exact Or.inr (Or.inr (hcall (r := ()) (by simp [State.call, hrec])))
    | join n job =>
      have hnext : ∀ r, ((stage (calls t) n).next ⟨.join n job, r⟩).isSome := fun r => by
        obtain ⟨q, hq⟩ := hop r
        exact next_of_await hx h hq
      rcases join_or_task hnext (hsound.held.task n) with ⟨r, hr⟩ | ⟨τ, hτ, hdone⟩
      · exact Or.inr (Or.inr (hcall hr))
      · obtain ⟨a, ha, hs⟩ := State.exists_takes u hsound.owned.locked (passesFit_of_run hx h)
          hτ hdone
        obtain ⟨s', hs'⟩ := Option.isSome_iff_exists.mp hs
        exact Or.inr (Or.inr ⟨_, _, .act hs', ha⟩)
    | spawn n job timeout =>
      refine Or.inr (Or.inr (hcall (r := ()) ?_))
      cases job <;> rfl
    | enter n | report n | drop n a => exact Or.inr (Or.inr (hcall (r := ()) rfl))

/-- A step of the run in which user code does what it does and no timeout strikes. -/
def Sys.Goes (u : UserCode G) (y z : Sys) : Prop := ∃ l, Sys.Step G y l z ∧ u.Takes y.state l

theorem run_of_goes {u : UserCode G} (hg : ReflTransGen (Sys.Goes u) y z) :
    ∃ v, Sys.Run G y v z := by
  induction hg with
  | refl => exact ⟨[], .refl⟩
  | tail _ hs ih =>
    obtain ⟨v, hv⟩ := ih
    obtain ⟨l, hl, -⟩ := hs
    exact ⟨_, hv.tail hl⟩

/-- A task takes no clone by itself. -/
theorem not_takes_clone (u : UserCode G) (s : State) {l : Option Label} (h : u.Takes s l) :
    ¬ Label.Clones l := by
  rintro ⟨n, a, rfl⟩
  change Sys.taskStep (u.scenario s) s n = some (.clone n a) at h
  unfold Sys.taskStep at h
  split at h <;> cases h

/-- A run can be brought to its end, unless an assertion fails on the way. -/
theorem exists_goes (hx : run config g = some x) (u : UserCode G) (h : Sys.Run G x t y) :
    ∃ z, ReflTransGen (Sys.Goes u) y z ∧ (z.prog = .pure () ∨ z.AssertFails) := by
  generalize hm : y.left g = m
  induction m using Sys.leavesLess_wellFounded.induction generalizing y t with
  | _ m ih =>
    subst hm
    rcases run_goes_on hx u h with hp | ha | ⟨l, z, hs, ht⟩
    · exact ⟨y, .refl, Or.inl hp⟩
    · exact ⟨y, .refl, Or.inr ha⟩
    · have hlt := (left_of_step hx h hs).resolve_right fun hc => not_takes_clone u _ ht hc.2
      obtain ⟨z', hz', hend⟩ := ih _ hlt (h.tail hs) rfl
      exact ⟨z', .head ⟨l, hs, ht⟩ hz', hend⟩

end Run

/-! ## Runs of two tests -/

/-- User code that makes fixtures that hold nothing, and never fails. -/
def UserCode.passing (G : FixtureGraph) : UserCode G where
  setup _ _ _ := .done []
  respects _ _ _ := rfl
  body _ _ := .ok ()
  teardown _ _ := .ok ()

abbrev UserCode.plain : UserCode noDependencies := .passing noDependencies

/-- The first test is in its body. -/
theorem exists_run_in_body : ∃ x t y, run {} twoTests = some x ∧ Sys.Run noDependencies x t y ∧
    y.state.tasks (.test [0] 0) = some .test ∧ 2 ∈ y.state.inner.heldBy (.body (.test [0] 0)) := by
  obtain ⟨x, t, y, hx, h, hP⟩ := exists_run_of_reaches noDependencies {} {} twoTests 24
    (fun _ s => s.tasks (.test [0] 0) = some .test ∧
      2 ∈ s.inner.heldBy (.body (.test [0] 0))) (by decide +kernel)
  exact ⟨x, t, y, hx, h, of_decide_eq_true hP⟩

/-- The state in which the body of the first test has cloned its `Arc` so many times more. -/
def State.cloned (s : State) : Nat → State
  | 0 => s
  | k + 1 => (s.cloned k).setInner ((s.cloned k).inner.hold (.body (.test [0] 0)) 2)

theorem State.act_cloned {s : State} (ht : s.tasks (.test [0] 0) = some .test)
    (ha : 2 ∈ s.inner.heldBy (.body (.test [0] 0))) (k : Nat) :
    (s.cloned k).act noDependencies (.clone (.test [0] 0) 2) = some (s.cloned (k + 1)) := by
  have hkeep : (s.cloned k).tasks (.test [0] 0) = some .test ∧
      2 ∈ (s.cloned k).inner.heldBy (.body (.test [0] 0)) := by
    induction k with
    | zero => exact ⟨ht, ha⟩
    | succ k ih =>
      refine ⟨ih.1, ?_⟩
      simp only [cloned, setInner_inner, Inner.heldBy_hold]
      exact List.mem_append_left _ ih.2
  exact if_pos ⟨hkeep.1, Or.inl hkeep.2⟩

end E2etest
