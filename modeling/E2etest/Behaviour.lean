import E2etest.Demand.Plan
import E2etest.Settling

/-!
# User code that does not look at the schedule

`Behaviour` fixes what user code does: by which plan each fixture is set up, how each test ends.
`Obeys` says that a run goes like that; that no teardown fails (`TeardownsPass`), and no setup waits
too long for the lock (`SetupsGetLock`), is said apart. What a setup finds in the cache is still up to
the schedule.

* `Script.stored`: what `F::setup` does with the manager's maps is the plan of `F` carried out with a
  store.
* `joins_of_obeys`: so each setup in such a run ends as its plan says, whatever is in the cache.
-/

namespace E2etest

open Async Text Demand E2etest.Inner

/-- What user code does. -/
structure Behaviour where
  plan : Plan TypeId
  body : NodeId → Except Unit Unit

/-- How a setup ends. -/
def outcomeOf {α : Type} : Except Unit (Option α) → Outcome
  | .ok (some _) => .made
  | .ok none => .skipped
  | .error _ => .failed

/-- `F::setup` goes by a plan, after the answers so far. What it finds out with `Setup::get`, and which
`Arc`s it keeps, makes no difference. -/
def Script.follows (p : Plan TypeId) : Script → TypeId → List Bool → List Arc → Inner → Bool
  | .done _, f, answers, _, _ => decide (p f answers = .finish .made)
  | .skip, f, answers, _, _ => decide (p f answers = .finish .skipped)
  | .abort, f, answers, _, _ => decide (p f answers = .finish .failed)
  | .setup d run next, f, answers, got, s =>
    decide (p f answers = .ask d) &&
    (decide (d ∈ s.permanent ∨ d ∈ s.cache) || run.follows p d [] [] (s.log (.setup d))) &&
    match s.setup d (run.run []) with
    | (s, .ok (some a)) => next.follows p f (answers ++ [true]) (got ++ [a]) s
    | (s, .ok none) => next.follows p f (answers ++ [false]) got s
    | (_, .error _) => true
  | .get d next, f, answers, got, s =>
    match s.get d with
    | .ok (some a) => next.follows p f answers (got ++ [a]) s
    | .ok none => next.follows p f answers got s
    | .error _ => true
  | .clone i j next, f, answers, got, s =>
    match got[i]?.bind fun a => (s.heldBy (.inst a))[j]? with
    | some b => next.follows p f answers (got ++ [b]) s
    | none => next.follows p f answers got s

/-- The step is one that the user code takes. -/
def Behaviour.takes (b : Behaviour) (s : State) : Label → Bool
  | .act (.setup n script) =>
    match s.tasks n with
    | some (.setupLocked f) => decide (f ∈ s.inner.permanent ∨ f ∈ s.inner.cache) ||
        script.follows b.plan f [] [] (s.inner.log (.setup f))
    | _ => true
  | .act (.testEnd n r) => decide (r = b.body n)
  | _ => true

/-- Each step of a replay is one that the user code takes. -/
def Obeys (G : FixtureGraph) (b : Behaviour) (s : State) (t : List Label) : Prop :=
  ∀ v ∈ s.gather G (fun s l _ => [b.takes s l]) t, v = true

instance (G : FixtureGraph) (b : Behaviour) (s : State) (t : List Label) :
    Decidable (Obeys G b s t) :=
  inferInstanceAs (Decidable (∀ v ∈ s.gather G (fun s l _ => [b.takes s l]) t, v = true))

theorem Obeys.snoc {G : FixtureGraph} {b : Behaviour} {s₀ s s' : State} {t : List Label} {l : Label}
    (h : Obeys G b s₀ (t ++ [l])) (hs : s₀.replay G t = some s) (hl : s.label G l = some s') :
    Obeys G b s₀ t ∧ b.takes s l = true := by
  unfold Obeys at h ⊢
  rw [State.gather_append hs] at h
  refine ⟨fun v hv => h v (List.mem_append_left _ hv), h _ (List.mem_append_right _ ?_)⟩
  simp only [State.gather, hl, List.append_nil, List.mem_singleton]

/-- The setup call of a node times out while another task holds the lock. -/
def Act.losesSetupLock : Act → Bool
  | .cancelSetup _ => true
  | _ => false

/-- No teardown call of a node fails: no fixture teardown fails, and none times out on the lock. -/
abbrev TeardownsPass (t : List Label) : Prop := Never Act.failsTeardown t

/-- No setup call times out on the lock. -/
abbrev SetupsGetLock (t : List Label) : Prop := Never Act.losesSetupLock t

/-- The types that have a fixture. -/
def Inner.types (s : Inner) : Set TypeId := {f | f ∈ s.permanent ∨ f ∈ s.cache}

theorem Inner.mem_types_iff {s : Inner} {f : TypeId} : f ∈ s.types ↔ s.find f ≠ none := by
  rw [Ne, find_eq_none, ← not_or, not_not]
  rfl

section Setup

variable {G : FixtureGraph} {p : Plan TypeId} {s s' : Inner} {d : TypeId} {r : Except Unit (Option Arc)}

/-- **`Setup::setup` is asking with a store**, given that `F::setup` goes by the plan. -/
theorem Inner.asked_of_setup {fSetup : Inner → Inner × Except Unit (Option (List Arc))} (hs : s.Ok)
    (hstored : d ∉ s.types → ∀ {u q}, fSetup (s.log (.setup d)) = (u, q) →
      Stored p s.types d [] (outcomeOf q) u.types)
    (h : s.setup d fSetup = (s', r)) : Asked p s.types d (outcomeOf r) s'.types := by
  unfold Inner.setup at h
  by_cases hmem : d ∈ s.permanent ∨ d ∈ s.cache
  · obtain ⟨a, ha⟩ := Option.ne_none_iff_exists'.mp (mem_types_iff.mp hmem)
    rw [if_pos hmem, hs.get_eq, ha] at h
    obtain ⟨rfl, rfl⟩ := Prod.mk.inj h
    exact .found hmem
  · rw [if_neg hmem] at h
    cases hu : fSetup (s.log (.setup d)) with
    | mk u q =>
      have hq := hstored hmem hu
      rw [hu] at h
      rcases q with e | _ | held
      · obtain ⟨rfl, rfl⟩ := Prod.mk.inj h
        exact .not_made hmem hq Outcome.noConfusion
      · obtain ⟨rfl, rfl⟩ := Prod.mk.inj h
        exact .not_made hmem hq Outcome.noConfusion
      · obtain ⟨rfl, rfl⟩ := Prod.mk.inj h
        have htypes : (u.insert d held).types = Insert.insert d u.types := by
          ext f
          change f ∈ u.permanent ∨ f ∈ u.cache.insert d u.heap.length ↔ f = d ∨ f ∈ u.types
          rw [AList.mem_insert, or_left_comm]
          rfl
        change Asked p s.types d .made (u.insert d held).types
        rw [htypes]
        exact .made hmem hq

/-- **`F::setup` is the plan of `F`, carried out with the maps as the store.** -/
theorem Script.stored (G : FixtureGraph) {given : TypeId → Bool} :
    ∀ (sc : Script) {f : TypeId} {answers : List Bool} {got : List Arc} {s s' : Inner}
      {r : Except Unit (Option (List Arc))}, sc.respects G f = true → s.Ok →
      (∀ d, given d = true ↔ d ∈ s.permanent) → given f = false →
      sc.follows p f answers got s = true → sc.run got s = (s', r) →
      Stored (p.given given) s.types f answers (outcomeOf r) s'.types
  | .done keep, f, answers, got, s, s', r => by
    intro _ _ _ hf hfollows h
    obtain ⟨rfl, rfl⟩ := Prod.mk.inj h
    exact .finish ((Plan.given_of_not hf).trans (of_decide_eq_true hfollows))
  | .skip, f, answers, got, s, s', r => by
    intro _ _ _ hf hfollows h
    obtain ⟨rfl, rfl⟩ := Prod.mk.inj h
    exact .finish ((Plan.given_of_not hf).trans (of_decide_eq_true hfollows))
  | .abort, f, answers, got, s, s', r => by
    intro _ _ _ hf hfollows h
    obtain ⟨rfl, rfl⟩ := Prod.mk.inj h
    exact .finish ((Plan.given_of_not hf).trans (of_decide_eq_true hfollows))
  | .setup d run next, f, answers, got, s, s', r => by
    intro hG hs hgiven hf hfollows h
    simp only [Script.respects, Bool.and_eq_true] at hG
    obtain ⟨⟨-, hrun⟩, hnext⟩ := hG
    unfold Script.follows at hfollows
    rw [Bool.and_eq_true, Bool.and_eq_true, Bool.or_eq_true] at hfollows
    obtain ⟨⟨hask, hdfollows⟩, hfollows⟩ := hfollows
    rw [decide_eq_true_eq] at hdfollows
    have hmove := (Plan.given_of_not hf).trans (of_decide_eq_true hask)
    -- what is asked for is found, or its setup goes by its own plan
    have hstored : d ∉ s.types → ∀ {u q}, run.run [] (s.log (.setup d)) = (u, q) →
        Stored (p.given given) s.types d [] (outcomeOf q) u.types := by
      intro hd u q hu
      refine stored G run (s := s.log (.setup d)) hrun (hs.log _) hgiven ?_
        (hdfollows.resolve_left hd) hu
      exact Bool.eq_false_of_not_eq_true fun hg => hd (Or.inl ((hgiven d).mp hg))
    unfold Script.run at h
    cases hu : s.setup d (run.run []) with
    | mk u q =>
      obtain ⟨hgrows, -⟩ := Inner.setup_run_spec hrun hs hu
      have hasked := Inner.asked_of_setup hs hstored hu
      have hgiven' : ∀ d, given d = true ↔ d ∈ u.permanent := by
        rw [hgrows.ext.permanent]
        exact hgiven
      rw [hu] at h hfollows
      rcases q with e | _ | a
      · obtain ⟨rfl, rfl⟩ := Prod.mk.inj h
        exact hasked.then_failed hmove
      · exact hasked.then_skipped hmove (stored G next hnext hgrows.ok hgiven' hf hfollows h)
      · exact hasked.then_made hmove (stored G next hnext hgrows.ok hgiven' hf hfollows h)
  | .get d next, f, answers, got, s, s', r => by
    intro hG hs hgiven hf hfollows h
    unfold Script.run at h
    unfold Script.follows at hfollows
    rw [hs.get_eq] at h hfollows
    cases hfind : s.find d with
    | none =>
      rw [hfind] at h hfollows
      exact stored G next hG hs hgiven hf hfollows h
    | some a =>
      rw [hfind] at h hfollows
      exact stored G next hG hs hgiven hf hfollows h
  | .clone i j next, f, answers, got, s, s', r => by
    intro hG hs hgiven hf hfollows h
    unfold Script.run at h
    unfold Script.follows at hfollows
    cases hclone : got[i]?.bind fun a => (s.heldBy (.inst a))[j]? with
    | none =>
      rw [hclone] at h hfollows
      exact stored G next hG hs hgiven hf hfollows h
    | some b =>
      rw [hclone] at h hfollows
      exact stored G next hG hs hgiven hf hfollows h

/-- **A setup ends as its plan says**, whatever is in the cache. -/
theorem Inner.setup_ends {sc : Script} {f : TypeId} (hG : sc.respects G f = true) (hs : s.Ok)
    (hfollows : f ∉ s.types → sc.follows p f [] [] (s.log (.setup f)) = true)
    (hg : Genuine (p.given fun f => decide (f ∈ s.permanent)) s.types)
    (h : s.setup f (sc.run []) = (s', r)) :
    Ends (p.given fun f => decide (f ∈ s.permanent)) f [] (outcomeOf r) ∧
      Genuine (p.given fun f => decide (f ∈ s.permanent)) s'.types := by
  refine (Inner.asked_of_setup hs (fun hf u q hu => ?_) h).ends hg
  refine sc.stored G (s := s.log (.setup f)) hG (hs.log _) (fun d => decide_eq_true_iff) ?_
    (hfollows hf) hu
  exact decide_eq_false fun hmem => hf (Or.inl hmem)

end Setup

/-! ## The invariant -/

/-- The plans of a run: permanent fixtures are given. -/
def Behaviour.planOf (b : Behaviour) (config : Config) : Plan TypeId :=
  b.plan.given fun f => decide (f ∈ (Inner.withPermanent config.permanentFixtures).permanent)

section Told

variable {G : FixtureGraph} {p : Plan TypeId} {b : Behaviour} {σ σ' : NodeId → Stage}
  {s s' : State} {n : NodeId} {c : OpCall}

/-- What the task of a node has brought is what the user code says. -/
def Brought (p : Plan TypeId) (b : Behaviour) (n : NodeId) (q : Stage) : TaskState → Prop
  | .setupDone r => ∀ f, q = .settingUp f → Ends p f [] (outcomeOf r)
  | .testDone r => r = b.body n
  | .teardownDone r => r = .ok ()
  | _ => True

/-- What a join returns is what the user code says. -/
def Answers (p : Plan TypeId) (b : Behaviour) : OpCall → Prop
  | ⟨.join _ (.setup f), r⟩ => Ends p f [] (outcomeOf r)
  | ⟨.join n (.test _), r⟩ => r = b.body n
  | ⟨.join _ .teardown, r⟩ => r = .ok ()
  | _ => True

/-- The maps and the tasks are as the user code says. -/
structure Told (p : Plan TypeId) (b : Behaviour) (σ : NodeId → Stage) (s : State) : Prop where
  genuine : Genuine p s.inner.types
  task : ∀ n task, s.tasks n = some task → Brought p b n (σ n) task

theorem Told.of_node (h : Told p b σ s) (hσ : ∀ m, m ≠ n → σ' m = σ m)
    (hne : ∀ m, m ≠ n → s'.tasks m = s.tasks m) (hg : Genuine p s'.inner.types)
    (hn : ∀ task, s'.tasks n = some task → Brought p b n (σ' n) task) : Told p b σ' s' := by
  refine ⟨hg, fun m task hm => ?_⟩
  by_cases hmn : m = n
  · rw [hmn] at hm ⊢
    exact hn task hm
  · rw [hσ m hmn]
    exact h.task m task (hne m hmn ▸ hm)

theorem Told.act {a : Act} (h : Told p b σ s) (hs : Held σ s) (ho : s.Owned)
    (hp : p = b.plan.given fun f => decide (f ∈ s.inner.permanent)) (hact : State.ActStep G s a s')
    (htakes : b.takes s (.act a) = true) (hpass : a.failsTeardown = false)
    (hlock : a.losesSetupLock = false) : Told p b σ s' := by
  have hne : ∀ m, m ≠ a.node → s'.tasks m = s.tasks m := fun m hm => hact.tasks_ne hm
  have hgo : ∀ task, s'.tasks a.node = some task → Genuine p s'.inner.types →
      Brought p b a.node (σ a.node) task → Told p b σ s' := by
    intro task ht hg hbrought
    refine h.of_node (fun _ _ => rfl) hne hg fun task' ht' => ?_
    obtain rfl := Option.some.inj (ht.symm.trans ht')
    exact hbrought
  cases hact with
  | lockSetup _ _ | lockTeardown _ _ | keep _ _ _ _ | nextPass _ =>
    exact hgo _ (State.setTask_self _ _ _) h.genuine trivial
  | sweepEnd _ => exact hgo _ (State.setTask_self _ _ _) h.genuine rfl
  | clone ht _ => exact hgo _ ht h.genuine trivial
  | teardownEnd _ => exact hgo _ (State.setTask_self _ _ _) h.genuine trivial
  | unwrap _ _ => exact hgo _ (State.setTask_self _ _ _) h.genuine trivial
  | take _ _ _ _ =>
    refine hgo _ (State.setTask_self _ _ _) (h.genuine.mono ?_) trivial
    rintro k (hk | hk)
    · exact Or.inl hk
    · exact Or.inr (AList.mem_erase.mp hk).2
  | @testEnd n r _ =>
    have hr : r = b.body n := of_decide_eq_true htakes
    refine hgo (.testDone r) (by simp [Act.node]) ?_ hr
    rw [State.panicked_inner]
    exact h.genuine
  | cancelSetup _ _ => cases hlock
  | teardownFails _ | cancelTeardown _ _ => cases hpass
  | unwrapFails ht h1 => exact absurd (ho.strongCount_extracted ht) h1
  | @setup n f script inner r ht hG hr =>
    have hfits := hs.task n
    rw [ht] at hfits
    have hfollows : f ∉ s.inner.types →
        script.follows b.plan f [] [] (s.inner.log (.setup f)) = true := by
      intro hf
      unfold Behaviour.takes at htakes
      simp only [ht, Bool.or_eq_true, decide_eq_true_eq] at htakes
      exact htakes.resolve_left hf
    obtain ⟨hends, hgenuine⟩ := Inner.setup_ends hG ho.ok hfollows (hp ▸ h.genuine) hr
    rw [← hp] at hends hgenuine
    refine hgo (.setupDone r) (by simp [Act.node]) ?_ fun k hk => ?_
    · rw [State.setupPanicked_inner]
      rcases r with e | _ | c <;> exact hgenuine
    · have hk' : σ n = .settingUp k := hk
      rw [hk'] at hfits
      cases hfits
      exact hends

/-- An operation of the runner. -/
theorem Told.call (h : Told p b σ s) (hs : Held σ s) (hj : Joint G σ s (.call c) σ' s') :
    Told p b σ' s' ∧ Answers p b c := by
  have hadv := hj.advance
  have hfits := hs.task c.1.node
  have htask := h.task c.1.node
  have hgo : Genuine p s'.inner.types → (∀ task, s'.tasks c.1.node = some task →
      Brought p b c.1.node (σ' c.1.node) task) → Told p b σ' s' :=
    h.of_node (fun m hm => hj.stage_ne hm) fun m hm => hj.tasks_ne hm
  clear hj
  generalize σ c.1.node = q at hadv hfits htask
  generalize σ' c.1.node = q' at hadv hgo
  cases hadv with
  | enter _ | report _ => exact ⟨hgo h.genuine htask, trivial⟩
  | record _ _ _ => exact ⟨hgo h.genuine htask, trivial⟩
  | spawnSetup | spawnTeardown | spawnTest =>
    refine ⟨hgo h.genuine fun task ht => ?_, trivial⟩
    obtain rfl := Option.some.inj ((State.setTask_self _ _ _).symm.trans ht)
    trivial
  | @joinSetup n f r s hr =>
    refine ⟨hgo ?_ fun task ht => ?_, htask _ hr f rfl⟩
    · rcases r with e | _ | a <;> exact h.genuine
    · cases (State.setTask_self _ _ _).symm.trans ht
  | joinTest hr | joinTeardown hr =>
    refine ⟨hgo h.genuine fun task ht => ?_, htask _ hr⟩
    cases (State.setTask_self _ _ _).symm.trans ht
  | drop | close _ =>
    refine ⟨hgo h.genuine fun task ht => ?_, trivial⟩
    cases (hfits.eq_none rfl).symm.trans ht

end Told

section Run

variable {G : FixtureGraph} {config : Config} {g : Group} {x y : Sys} {t : List Label}
  {b : Behaviour}

/-- What is there at first is given. -/
theorem told_init (hx : run config g = some x) :
    Told (b.planOf config) b (stage []) x.state := by
  obtain ⟨statistics, hinit⟩ := init_of_run hx
  rw [hinit]
  refine ⟨fun f hf => ?_, fun n task ht => ?_⟩
  · have hcache := (State.bare_withPermanent config.permanentFixtures).cache
    have hmem : f ∈ (Inner.withPermanent config.permanentFixtures).permanent := by
      refine hf.resolve_right fun hc => ?_
      change f ∈ (Inner.withPermanent config.permanentFixtures).cache at hc
      rw [hcache] at hc
      exact AList.notMem_empty f hc
    exact .finish (Plan.given_of_given (decide_eq_true hmem))
  · cases ht

/-- **What the joins of a run return is what the user code says.** -/
theorem joins_of_obeys (hx : run config g = some x) (h : Sys.Run G x t y)
    (hobeys : Obeys G b x.state t) (hpass : TeardownsPass t) (hlock : SetupsGetLock t) :
    ∀ c ∈ calls t, Answers (b.planOf config) b c := by
  refine (invariant_of_run (P := fun t s => Obeys G b x.state t → TeardownsPass t →
    SetupsGetLock t → Told (b.planOf config) b (stage (calls t)) s ∧
      ∀ c ∈ calls t, Answers (b.planOf config) b c) hx ?_ ?_ h hobeys hpass hlock).2
  · exact fun _ _ _ => ⟨told_init hx, fun c hc => absurd hc List.not_mem_nil⟩
  · rintro t l s s' ⟨p, hrun⟩ ⟨p', hrun'⟩ hj ih hobeys hpass hlock
    have hs := sound_of_run hx hrun
    obtain ⟨s₁, hs₁, hl⟩ := Sys.run_snoc hrun'
    obtain rfl : s = s₁ := Option.some.inj ((Sys.run_split hrun).2.symm.trans hs₁)
    obtain ⟨hobeys, htakes⟩ := hobeys.snoc hs₁ hl
    obtain ⟨htold, hjoins⟩ := ih hobeys hpass.of_append hlock.of_append
    cases l with
    | act a =>
      have hplan : b.planOf config = b.plan.given fun f => decide (f ∈ s.inner.permanent) := by
        rw [hs.logged.permanent]
        rfl
      refine ⟨?_, fun c hc => hjoins c (by simpa using hc)⟩
      rw [hj.stage_act]
      exact htold.act hs.held hs.owned hplan hj.actStep htakes hpass.last hlock.last
    | call c =>
      obtain ⟨htold', hanswers⟩ := htold.call hs.held hj
      refine ⟨htold', fun d hd => ?_⟩
      rw [calls_append, calls_call] at hd
      rcases List.mem_append.mp hd with hd | hd
      · exact hjoins d hd
      · obtain rfl := List.mem_singleton.mp hd
        exact hanswers

end Run

end E2etest
