import E2etest.Holding
import E2etest.Sweep

/-!
# Who still has to sweep

A fixture in the cache to which nothing else points waits for a sweep. `Inner.Settled` says that
there is none, `Due` that some node has a sweep before it that will meet them all: the node has not
come to its teardown yet, or it waits for the lock, or its pass has them ahead, or has found
something and will be followed by another pass.

A step that changes what the manager has leaves a node due (`inner_of_joint`), and a node stays due
until its sweep has left nothing or its teardown call has failed (`due_of_joint`). It fails in a
fixture teardown (`Act.failsFixture`), or because the time is up while another task holds the lock
(`Act.losesLock`). So in a run without either somebody is due while a node moves, and when one has
just closed (`due_or_settled`). The root, which nobody keeps from the lock, is due until its own sweep
has failed with something left in the cache (`root_due`).
-/

namespace E2etest

open Async Text E2etest.Inner

/-- Nothing in the cache is free. -/
def Inner.Settled (s : Inner) : Prop := ∀ f a, s.cache.lookup f = some a → s.strongCount a ≠ 1

/-- The teardown of a fixture fails. -/
def Act.failsFixture : Act → Bool
  | .teardownEnd _ (.error ()) => true
  | _ => false

/-- The teardown call of a node times out while another task holds the lock. -/
def Act.losesLock : Act → Bool
  | .cancelTeardown _ => true
  | _ => false

/-- The teardown call of a node fails, in the one way or the other. -/
def Act.failsTeardown (a : Act) : Bool := a.failsFixture || a.losesLock

/-- The label is a step of a task, of this kind. -/
def Label.isAct (p : Act → Bool) : Label → Bool
  | .act a => p a
  | .call _ => false

/-- No task takes a step of this kind. -/
def Never (p : Act → Bool) (t : List Label) : Prop := ∀ l ∈ t, l.isAct p = false

instance (p : Act → Bool) (t : List Label) : Decidable (Never p t) :=
  inferInstanceAs (Decidable (∀ l ∈ t, l.isAct p = false))

theorem Never.of_append {p : Act → Bool} {t : List Label} {l : Label} (h : Never p (t ++ [l])) :
    Never p t :=
  fun m hm => h m (List.mem_append_left _ hm)

theorem Never.last {p : Act → Bool} {t : List Label} {a : Act} (h : Never p (t ++ [.act a])) :
    p a = false :=
  h (.act a) (List.mem_append_right _ (List.mem_singleton_self _))

/-- No fixture teardown fails. -/
abbrev FixtureTeardownsPass (t : List Label) : Prop := Never Act.failsFixture t

/-- No teardown call times out on the lock. -/
abbrev TeardownsGetLock (t : List Label) : Prop := Never Act.losesLock t

/-- The node a label is of. -/
def Label.node : Label → NodeId
  | .call c => c.1.node
  | .act a => a.node

/-- The node is under way and will come to its teardown. Whether one that holds its fixture counts
is up to `b`: an open group waits for what is inside. -/
def Stage.ahead (b : Bool) : Stage → Bool
  | .settingUp _ | .testing _ | .released => true
  | .holding _ => b
  | .idle | .tearing | .torn _ | .closed => false

/-- A sweep in this state still meets every free fixture. -/
inductive Meets (s : Inner) : TaskState → Prop
  | teardown : Meets s .teardown
  | pass {pending : List TypeId}
      (h : ∀ f a, s.cache.lookup f = some a → s.strongCount a = 1 → f ∈ pending) :
      Meets s (.sweep pending false)
  | found {pending : List TypeId} : Meets s (.sweep pending true)
  | extracted {pending : List TypeId} {a : Arc} : Meets s (.extracted pending a)
  | tearing {pending : List TypeId} {a : Arc} : Meets s (.tearing pending a)

/-- The node has a sweep before it that will meet every free fixture. -/
def Due (b : Bool) (σ : NodeId → Stage) (s : State) (n : NodeId) : Prop :=
  (σ n).ahead b = true ∨ ∃ task, s.tasks n = some task ∧ Meets s.inner task

theorem Meets.fits {s : Inner} {task : TaskState} {q : Stage} (h : Meets s task)
    (hq : Fits q (some task)) : q = .tearing := by
  cases h <;> cases hq <;> rfl

/-- A pass that starts has everything ahead. -/
theorem meets_keys (s : Inner) : Meets s (.sweep s.cache.keys false) := by
  refine .pass fun f a hf _ => ?_
  exact AList.mem_keys.mp (AList.lookup_isSome.mp (by rw [hf]; rfl))

theorem Stage.moving_of_ahead {b : Bool} {q : Stage} (h : q.ahead b = true) :
    q.moving b = true := by
  cases q <;> first | rfl | exact h

theorem Due.moving {σ : NodeId → Stage} {s : State} {n : NodeId} (h : Due n.isTest σ s n)
    (hs : Held σ s) : Moving σ n := by
  obtain h | ⟨task, ht, h⟩ := h
  · exact Stage.moving_of_ahead h
  · have hfits := hs.task n
    rw [ht] at hfits
    unfold Moving
    rw [h.fits hfits]
    rfl

section Step

variable {G : FixtureGraph} {σ σ' : NodeId → Stage} {s s' : State} {l : Label} {n : NodeId} {b : Bool}

/-- **A step of a sweep** that does not fail goes on or leaves nothing. -/
theorem Meets.act {a : Act} {task : TaskState} (hs : s.Owned) (h : State.ActStep G s a s')
    (ht : s.tasks a.node = some task) (hm : Meets s.inner task) :
    (∃ task', s'.tasks a.node = some task' ∧ Meets s'.inner task') ∨ s'.inner.Settled ∨
      a.failsTeardown = true := by
  cases h with
  | lockSetup h _ | cancelSetup h _ | clone h _ | testEnd h =>
    unfold Act.node at ht
    rw [h] at ht
    cases ht
    cases hm
  | setup h _ _ =>
    unfold Act.node at ht
    rw [h] at ht
    cases ht
    cases hm
  | lockTeardown _ _ => exact Or.inl ⟨_, State.setTask_self _ _ _, meets_keys _⟩
  | take _ _ _ _ => exact Or.inl ⟨_, State.setTask_self _ _ _, .extracted⟩
  | @keep n f pending foundAny c h hc _ h1 =>
    refine Or.inl ⟨_, State.setTask_self _ _ _, ?_⟩
    unfold Act.node at ht
    rw [h] at ht
    obtain rfl := Option.some.inj ht
    cases hm with
    | found => exact .found
    | pass hp =>
      refine .pass fun g d hg hd => ?_
      have hne : g ≠ f := by
        rintro rfl
        obtain rfl := Option.some.inj (hg.symm.trans hc)
        exact h1 hd
      exact (List.mem_erase_of_ne hne).mpr (hp g d hg hd)
  | unwrap _ _ => exact Or.inl ⟨_, State.setTask_self _ _ _, .tearing⟩
  | unwrapFails h h1 => exact absurd (hs.strongCount_extracted h) h1
  | teardownEnd _ => exact Or.inl ⟨_, State.setTask_self _ _ _, .found⟩
  | teardownFails _ | cancelTeardown _ _ => exact Or.inr (Or.inr rfl)
  | nextPass _ => exact Or.inl ⟨_, State.setTask_self _ _ _, meets_keys _⟩
  | sweepEnd h =>
    unfold Act.node at ht
    rw [h] at ht
    obtain rfl := Option.some.inj ht
    cases hm with
    | pass hp => exact Or.inr (Or.inl fun f a hf h1 => List.not_mem_nil (hp f a hf h1))

/-- A group that is done with its setup has only what is inside before it. -/
def Opens (b : Bool) (σ σ' : NodeId → Stage) (n : NodeId) : Prop :=
  b = false ∧ (σ n).moving b = true ∧ ∃ a, σ' n = .holding a

/-- A node that will come to its teardown goes on, or waits for its sweep. -/
theorem ahead_of_advance {c : OpCall} {q q' : Stage} (h : Advance c q s q' s')
    (hq : q.ahead b = true) : q'.ahead b = true ∨ s'.tasks c.1.node = some .teardown ∨
      b = false ∧ q.moving b = true ∧ ∃ a, q' = .holding a := by
  cases h with
  | enter _ | report _ | record _ _ _ => exact Or.inl hq
  | spawnSetup | spawnTest | drop => exact Or.inl rfl
  | @joinSetup n f r _ _ =>
    rcases r with e | _ | a
    · exact Or.inl rfl
    · exact Or.inl rfl
    · cases b with
      | true => exact Or.inl rfl
      | false => exact Or.inr (Or.inr ⟨rfl, rfl, a, rfl⟩)
  | @joinTest n a r _ _ =>
    cases b with
    | true => exact Or.inl rfl
    | false => exact Or.inr (Or.inr ⟨rfl, rfl, a, rfl⟩)
  | spawnTeardown => exact Or.inr (Or.inl (State.setTask_self _ _ _))
  | joinTeardown _ | close _ => cases hq

/-- **A node stays due** until its sweep has left nothing or has failed. -/
theorem due_of_joint (hs : Held σ s) (ho : s.Owned) (hj : Joint G σ s l σ' s')
    (h : Due b σ s l.node) : Due b σ' s' l.node ∨ s'.inner.Settled ∨
      (∃ a, l = .act a ∧ a.failsTeardown = true) ∨ Opens b σ σ' l.node := by
  cases hj with
  | @act a _ hact =>
    obtain hq | ⟨task, ht, hm⟩ := h
    · exact Or.inl (Or.inl hq)
    · rcases hm.act ho hact ht with hm | hsettled | hf
      · exact Or.inl (Or.inr hm)
      · exact Or.inr (Or.inl hsettled)
      · exact Or.inr (Or.inr (Or.inl ⟨a, rfl, hf⟩))
  | @call c q _ hadv =>
    have hself : (Function.update σ c.1.node q) c.1.node = q := Function.update_self ..
    obtain hq | ⟨task, ht, hm⟩ := h
    · rcases ahead_of_advance hadv hq with hq' | hw | ⟨hb, hmoving, a, ha⟩
      · exact Or.inl (Or.inl (by rw [Label.node, hself]; exact hq'))
      · exact Or.inl (Or.inr ⟨_, hw, .teardown⟩)
      · exact Or.inr (Or.inr (Or.inr ⟨hb, hmoving, a, hself.trans ha⟩))
    · -- while a sweep is under way, its node has nothing to do
      refine Or.inl (Or.inr ⟨task, ?_⟩)
      have hfits := hs.task c.1.node
      unfold Label.node at ht
      rw [ht] at hfits
      have hq := hm.fits hfits
      generalize σ c.1.node = p at hadv hq
      cases hadv with
      | enter _ | report _ | record _ _ _ => exact ⟨ht, hm⟩
      | joinTeardown hd =>
        obtain rfl := Option.some.inj (ht.symm.trans hd)
        cases hm
      | spawnSetup | joinSetup _ | spawnTest | joinTest _ | drop | spawnTeardown | close _ => cases hq

/-- **What changes what the manager has leaves a node due**, or is a failing teardown, or opens a
group. -/
theorem inner_of_joint (hs : Held σ s) (ho : s.Owned) (hj : Joint G σ s l σ' s') (b : Bool) :
    s'.inner = s.inner ∨ Due b σ' s' l.node ∨
      (∃ n, l = .act (.teardownEnd n (.error ()))) ∨ Opens b σ σ' l.node := by
  cases hj with
  | @call c q _ hadv =>
    have hself : (Function.update σ c.1.node q) c.1.node = q := Function.update_self ..
    have hahead : q.ahead b = true → Due b (Function.update σ c.1.node q) s' c.1.node :=
      fun hq => Or.inl (by rw [hself]; exact hq)
    have hopens : b = false → (σ c.1.node).moving b = true → (∃ a, q = .holding a) →
        Opens b σ (Function.update σ c.1.node q) c.1.node :=
      fun hb hm ⟨a, ha⟩ => ⟨hb, hm, a, hself.trans ha⟩
    unfold Label.node
    generalize σ c.1.node = p at hadv hopens
    cases hadv with
    | enter _ | report _ | record _ _ _ | spawnSetup | joinTest _ | spawnTeardown | joinTeardown _
    | close _ => exact Or.inl rfl
    | spawnTest | drop => exact Or.inr (Or.inl (hahead rfl))
    | @joinSetup n f r _ _ =>
      rcases r with e | _ | a
      · exact Or.inl rfl
      · exact Or.inl rfl
      · cases b with
        | true => exact Or.inr (Or.inl (hahead rfl))
        | false => exact Or.inr (Or.inr (Or.inr (hopens rfl rfl ⟨a, rfl⟩)))
  | @act a _ hact =>
    have hfits := hs.task a.node
    unfold Label.node
    cases hact with
    | lockSetup _ _ | lockTeardown _ _ | keep _ _ _ _ | nextPass _ | sweepEnd _ => exact Or.inl rfl
    | cancelSetup _ _ | cancelTeardown _ _ => exact Or.inl (by simp)
    | setup ht _ _ | clone ht _ | testEnd ht =>
      unfold Act.node at hfits
      rw [ht] at hfits
      refine Or.inr (Or.inl (Or.inl ?_))
      unfold Act.node
      generalize σ _ = q at hfits
      cases hfits
      rfl
    | take _ _ _ _ => exact Or.inr (Or.inl (Or.inr ⟨_, State.setTask_self _ _ _, .extracted⟩))
    | unwrap _ _ => exact Or.inr (Or.inl (Or.inr ⟨_, State.setTask_self _ _ _, .tearing⟩))
    | unwrapFails h h1 => exact absurd (ho.strongCount_extracted h) h1
    | teardownEnd _ => exact Or.inr (Or.inl (Or.inr ⟨_, State.setTask_self _ _ _, .found⟩))
    | teardownFails _ => exact Or.inr (Or.inr (Or.inl ⟨_, rfl⟩))

/-- **A step keeps its node due, or nothing free**, unless it fails a teardown or opens a group. -/
theorem due_or_settled_of_joint (hs : Held σ s) (ho : s.Owned) (hj : Joint G σ s l σ' s')
    (h : Due b σ s l.node ∨ s.inner.Settled) : (Due b σ' s' l.node ∨ s'.inner.Settled) ∨
      (∃ a, l = .act a ∧ a.failsTeardown = true) ∨ Opens b σ σ' l.node := by
  rcases h with hdue | hsettled
  · rw [or_assoc]
    exact due_of_joint hs ho hj hdue
  · rcases inner_of_joint hs ho hj b with hi | hdue | ⟨n, hl⟩ | hopens
    · exact Or.inl (Or.inr (by rw [hi]; exact hsettled))
    · exact Or.inl (Or.inl hdue)
    · exact Or.inr (Or.inl ⟨_, hl, rfl⟩)
    · exact Or.inr (Or.inr hopens)

/-- A node that does nothing stays as it is. -/
theorem Joint.stage_ne (hj : Joint G σ s l σ' s') (hn : n ≠ l.node) : σ' n = σ n := by
  cases hj with
  | call _ => exact Function.update_of_ne hn _ _
  | act _ => rfl

theorem Joint.stage_act {a : Act} (hj : Joint G σ s (.act a) σ' s') : σ' = σ := by
  cases hj
  rfl

theorem Joint.actStep {a : Act} (hj : Joint G σ s (.act a) σ' s') : State.ActStep G s a s' := by
  cases hj with
  | act h => exact h

theorem Joint.advance {c : OpCall} (hj : Joint G σ s (.call c) σ' s') :
    Advance c (σ c.1.node) s (σ' c.1.node) s' := by
  cases hj with
  | call h =>
    rw [Function.update_self]
    exact h

/-- A step of a task is one of a task that is there. -/
theorem exists_task {a : Act} (h : State.ActStep G s a s') : ∃ task, s.tasks a.node = some task := by
  cases h with
  | lockSetup ht _ | cancelSetup ht _ | clone ht _ | testEnd ht | lockTeardown ht _ | unwrap ht _
  | unwrapFails ht _ | teardownEnd ht | teardownFails ht | nextPass ht | sweepEnd ht
  | cancelTeardown ht _ => exact ⟨_, ht⟩
  | setup ht _ _ => exact ⟨_, ht⟩
  | take ht _ _ _ | keep ht _ _ _ => exact ⟨_, ht⟩

/-- A task that is done does not go on. -/
theorem not_done_of_act {a : Act} (h : State.ActStep G s a s') (r : Except Unit Unit) :
    s.tasks a.node ≠ some (.teardownDone r) := by
  intro hr
  cases h with
  | lockSetup ht _ | cancelSetup ht _ | clone ht _ | testEnd ht | lockTeardown ht _ | unwrap ht _
  | unwrapFails ht _ | teardownEnd ht | teardownFails ht | nextPass ht | sweepEnd ht
  | cancelTeardown ht _ => cases ht.symm.trans hr
  | setup ht _ _ => cases ht.symm.trans hr
  | take ht _ _ _ | keep ht _ _ _ => cases ht.symm.trans hr

/-- A node is closed by the operation that follows the end of its teardown. -/
theorem Joint.torn_of_closed {c : OpCall} (hj : Joint G σ s (.call c) σ' s')
    (h : σ' c.1.node = .closed) : ∃ r, σ c.1.node = .torn r := by
  cases hj with
  | @call c q _ hadv =>
    rw [Function.update_self] at h
    generalize σ c.1.node = p at hadv
    subst h
    generalize hq : Stage.closed = q at hadv
    cases hadv with
    | close _ => exact ⟨_, rfl⟩
    | enter hc | report hc | record _ hc _ => exact absurd hq.symm hc
    | @joinSetup n f r _ _ => exact absurd hq.symm (Stage.afterSetup_ne_closed r)
    | spawnSetup | spawnTest | joinTest _ | drop | spawnTeardown | joinTeardown _ => cases hq

/-- A node that begins to move is due. -/
theorem due_of_moving (hj : Joint G σ s l σ' s') (h : ¬ Moving σ l.node) (h' : Moving σ' l.node) :
    Due l.node.isTest σ' s' l.node := by
  cases hj with
  | act _ => exact absurd h' h
  | @call c q _ hadv =>
    have hself : (Function.update σ c.1.node q) c.1.node = q := Function.update_self ..
    unfold Moving at h h'
    rw [Label.node] at h h' ⊢
    rw [hself] at h'
    refine Or.inl ?_
    rw [hself]
    generalize σ c.1.node = p at hadv h
    cases hadv with
    | enter _ | report _ | record _ _ _ => exact absurd h' h
    | spawnSetup | spawnTest | drop => rfl
    | joinSetup _ | joinTest _ | spawnTeardown | joinTeardown _ => exact absurd rfl h
    | close _ => cases h'

theorem Joint.tasks_ne (hj : Joint G σ s l σ' s') (hn : n ≠ l.node) : s'.tasks n = s.tasks n := by
  cases hj with
  | call h => exact h.callStep.tasks_ne hn
  | act h => exact h.tasks_ne hn

/-- A node stays due while the manager does not change. -/
theorem Due.congr (h : Due b σ s n) (hj : Joint G σ s l σ' s') (hn : n ≠ l.node)
    (hi : s'.inner = s.inner) : Due b σ' s' n := by
  obtain hq | ⟨task, ht, hm⟩ := h
  · exact Or.inl (by rw [hj.stage_ne hn]; exact hq)
  · exact Or.inr ⟨task, by rw [hj.tasks_ne hn]; exact ht, by rw [hi]; exact hm⟩

end Step

/-! ## When nothing moves -/

/-- A node that does not move has no task. -/
theorem Held.task_eq_none {σ : NodeId → Stage} {s : State} {n : NodeId} (hs : Held σ s)
    (h : ¬ Moving σ n) : s.tasks n = none := by
  refine (hs.task n).eq_none ?_
  unfold Moving at h
  cases hq : σ n <;> rw [hq] at h <;> first | rfl | exact absurd rfl h

/-- What nobody sweeps away is held from outside. -/
theorem State.Owned.needed_of_settled {s : State} (h : s.Owned) (hs : s.inner.Settled)
    (hstill : ∀ n, s.tasks n = none) {a : Arc} (ha : s.inner.Cached a) : s.inner.Needed a := by
  have hinst : ∀ b a, s.inner.Holds b a → s.inner.Cached b := by
    intro b a hba
    refine (h.inst b a hba).resolve_right ?_
    rintro ⟨n, pending, hn | hn⟩ <;> rw [hstill n] at hn <;> cases hn
  refine Refs.reached_of_no_free (l := {a | s.inner.Cached a}) (h.ok.wellFounded hinst)
    (fun c hfree => ?_) a ha
  obtain ⟨f, hf⟩ := hfree.mem
  refine hs f c hf ((strongCount_eq_one_iff h.ok hf).mpr ?_)
  refine List.eq_nil_iff_forall_not_mem.mpr fun k hk => ?_
  rw [mem_holders] at hk
  by_cases hb : ∃ b, k = .inst b
  · obtain ⟨b, rfl⟩ := hb
    exact hfree.not_held b (hinst b c hk) hk
  · exact hfree.not_root ⟨k, hk, fun b he => hb ⟨b, he⟩⟩

/-- **What nobody sweeps away can be reached from what a node holds.** -/
theorem reached_of_settled {σ : NodeId → Stage} {s : State} (hs : Held σ s) (ho : s.Owned)
    (hsettled : s.inner.Settled) (h : ∀ n, ¬ Moving σ n) {a : Arc} (ha : s.inner.Cached a) :
    ∃ n e, σ n = .holding e ∧ (.node n, e) ∈ s.inner.arcs ∧ s.inner.Reaches e a := by
  have hstill := fun n => hs.task_eq_none (h n)
  obtain ⟨e, ⟨k, hk, hout⟩, hreach⟩ := ho.needed_of_settled hsettled hstill ha
  cases k with
  | inst b => exact absurd rfl (hout b)
  | task n =>
    rcases ho.task n e hk with hn | ⟨pending, hn⟩ <;> rw [hstill n] at hn <;> cases hn
  | body n =>
    have hn := ho.body n e hk
    rw [hstill n] at hn
    cases hn
  | node n =>
    refine ⟨n, e, ?_, hk, hreach⟩
    have hheld : e ∈ (σ n).held := by
      rw [← hs.node n]
      exact mem_heldBy.mpr hk
    have hn := h n
    unfold Moving at hn
    cases hq : σ n with
    | holding b =>
      rw [hq] at hheld
      rw [List.mem_singleton.mp hheld]
    | testing b =>
      rw [hq] at hn
      exact absurd rfl hn
    | _ =>
      rw [hq] at hheld
      cases hheld

/-! ## Who is due -/

section Run

variable {G : FixtureGraph} {config : Config} {g : Group} {x y z : Sys} {t u : List Label}

/-- The last operation closed its node. -/
def Closing (w : List OpCall) : Prop := ∃ v c, w = v ++ [c] ∧ stage w c.1.node = .closed

theorem closing_snoc {s s' : State} {l : Label}
    (hj : Joint G (stage (calls t)) s l (stage (calls (t ++ [l]))) s')
    (h : Closing (calls (t ++ [l]))) :
    Closing (calls t) ∧ stage (calls (t ++ [l])) = stage (calls t) ∨
      (∃ r, stage (calls t) l.node = .torn r) ∧ stage (calls (t ++ [l])) l.node = .closed := by
  obtain ⟨v, c, hv, hc⟩ := h
  cases l with
  | act a =>
    have hcalls : calls (t ++ [.act a]) = calls t := by simp
    rw [hcalls] at hv hc ⊢
    exact Or.inl ⟨⟨v, c, hv, hc⟩, rfl⟩
  | call d =>
    have hcalls : calls (t ++ [.call d]) = calls t ++ [d] := by simp
    rw [hcalls] at hv
    obtain ⟨-, hd⟩ := List.append_inj' hv rfl
    obtain rfl := List.singleton_inj.mp hd
    exact Or.inr ⟨hj.torn_of_closed hc, hc⟩

/-- When a node has just closed, no group moves. -/
theorem groups_still (hx : run config g = some x) (h : Sys.Run G x t y) (hc : Closing (calls t))
    {n : NodeId} (hn : n.isTest = false) : ¬ Moving (stage (calls t)) n := by
  refine invariant_of_run (P := fun t _ => Closing (calls t) → ¬ Moving (stage (calls t)) n) hx
    ?_ ?_ h hc
  · rintro ⟨v, c, hv, -⟩
    simp at hv
  · rintro t l s s' ⟨p, hrun⟩ - hj ih hc hm
    rcases closing_snoc hj hc with ⟨hc, he⟩ | ⟨⟨r, hr⟩, hclosed⟩
    · unfold Moving at hm
      rw [he] at hm
      exact ih hc hm
    · by_cases hl : n = l.node
      · subst hl
        exact not_moving_of_done (Or.inr hclosed) hm
      · unfold Moving at hm
        rw [hj.stage_ne hl] at hm
        refine not_both_moving hx hrun hl hn ⟨hm, ?_⟩
        unfold Moving
        rw [hr]
        rfl

/-- **Somebody is due** while a node moves, and when one has just closed, unless nothing is free. -/
theorem due_or_settled (hx : run config g = some x) (h : Sys.Run G x t y)
    (hok : FixtureTeardownsPass t) (hlock : TeardownsGetLock t)
    (hs : (∃ n, Moving (stage (calls t)) n) ∨ Closing (calls t)) :
    (∃ n, Due n.isTest (stage (calls t)) y.state n) ∨ y.state.inner.Settled := by
  refine invariant_of_run (P := fun t s => FixtureTeardownsPass t → TeardownsGetLock t →
    (∃ n, Moving (stage (calls t)) n) ∨ Closing (calls t) →
      (∃ n, Due n.isTest (stage (calls t)) s n) ∨ s.inner.Settled) hx ?_ ?_ h hok hlock hs
  · rintro - - (⟨n, hn⟩ | ⟨v, c, hv, -⟩)
    · rw [calls_nil, stage_nil] at hn
      exact absurd hn (not_moving_of_done (Or.inl rfl))
    · simp at hv
  · rintro t l s s' ⟨p, hrun⟩ - hj ih hok hlock hs
    have hsound := sound_of_run hx hrun
    have hlast : ∀ a, l = .act a → a.failsTeardown = false := by
      rintro a rfl
      exact Bool.or_eq_false_iff.mpr ⟨hok.last, hlock.last⟩
    -- a group that has just been set up is the only one that moved
    have hopens : ¬ Opens l.node.isTest (stage (calls t)) (stage (calls (t ++ [l]))) l.node := by
      rintro ⟨hgroup, hmoving, a, ha⟩
      rcases hs with ⟨n, hn⟩ | hc
      · by_cases hl : n = l.node
        · subst hl
          unfold Moving at hn
          rw [ha, hgroup] at hn
          cases hn
        · unfold Moving at hn
          rw [hj.stage_ne hl] at hn
          exact not_both_moving hx hrun (Ne.symm hl) hgroup ⟨hmoving, hn⟩
      · rcases closing_snoc hj hc with ⟨-, he⟩ | ⟨-, hclosed⟩
        · rw [he] at ha
          rw [ha, hgroup] at hmoving
          cases hmoving
        · cases ha.symm.trans hclosed
    have hbefore : (∃ n, Due n.isTest (stage (calls t)) s n) ∨ s.inner.Settled ∨
        Due l.node.isTest (stage (calls (t ++ [l]))) s' l.node := by
      by_cases hm : (∃ n, Moving (stage (calls t)) n) ∨ Closing (calls t)
      · exact (ih hok.of_append hlock.of_append hm).imp_right Or.inl
      · obtain ⟨hm, hc⟩ := not_or.mp hm
        refine Or.inr (Or.inr ?_)
        rcases hs with ⟨n, hn⟩ | hc'
        · by_cases hl : n = l.node
          · subst hl
            exact due_of_moving hj (fun h => hm ⟨_, h⟩) hn
          · unfold Moving at hn
            rw [hj.stage_ne hl] at hn
            exact absurd ⟨n, hn⟩ hm
        · rcases closing_snoc hj hc' with ⟨hc', -⟩ | ⟨⟨r, hr⟩, -⟩
          · exact absurd hc' hc
          · refine absurd ⟨l.node, ?_⟩ hm
            unfold Moving
            rw [hr]
            rfl
    have hkept : Due l.node.isTest (stage (calls t)) s l.node ∨ s.inner.Settled →
        (∃ n, Due n.isTest (stage (calls (t ++ [l]))) s' n) ∨ s'.inner.Settled := by
      intro h
      rcases due_or_settled_of_joint hsound.held hsound.owned hj h with h | ⟨a, ha, hf⟩ | ho
      · exact h.imp_left fun hdue => ⟨_, hdue⟩
      · rw [hlast a ha] at hf
        cases hf
      · exact absurd ho hopens
    rcases hbefore with ⟨n, hn⟩ | hsettled | hdue
    · by_cases hl : n = l.node
      · exact hkept (Or.inl (hl ▸ hn))
      · rcases inner_of_joint hsound.held hsound.owned hj l.node.isTest with hi | hdue | ⟨m, he⟩ | ho
        · exact Or.inl ⟨n, hn.congr hj hl hi⟩
        · exact Or.inl ⟨_, hdue⟩
        · cases hlast _ he
        · exact absurd ho hopens
    · exact hkept (Or.inr hsettled)
    · exact Or.inl ⟨_, hdue⟩

/-! ## The root -/

/-- A teardown has failed in the sweep of the root while something was in the cache. -/
def LeavesBehind (G : FixtureGraph) (s₀ : State) (t : List Label) : Prop :=
  ∃ u v s, t = u ++ .act (.teardownEnd (.group []) (.error ())) :: v ∧
    s₀.replay G u = some s ∧ s.inner.cache ≠ ∅

/-- The root has been torn down, or its teardown has failed. -/
def RootOver (σ : NodeId → Stage) (s : State) : Prop :=
  (∃ r, s.tasks (.group []) = some (.teardownDone r)) ∨ (∃ r, σ (.group []) = .torn r) ∨
    σ (.group []) = .closed

section Leaves

variable {s s' s₀ : State} {l : Label}

/-- Before the runner does anything there is nothing. -/
theorem cache_of_run (hx : run config g = some x) : x.state.inner.cache = ∅ := by
  obtain ⟨statistics, hinit⟩ := init_of_run hx
  rw [hinit]
  exact (State.bare_withPermanent config.permanentFixtures).cache

theorem leavesBehind_snoc (hs : s₀.replay G t = some s) : LeavesBehind G s₀ (t ++ [l]) ↔
    LeavesBehind G s₀ t ∨
      l = .act (.teardownEnd (.group []) (.error ())) ∧ s.inner.cache ≠ ∅ := by
  constructor
  · rintro ⟨u, v, s₁, ht, hu, hc⟩
    rcases List.eq_nil_or_concat v with rfl | ⟨v, m, rfl⟩
    · obtain ⟨rfl, hl⟩ := List.append_inj' ht rfl
      obtain rfl := Option.some.inj (hs.symm.trans hu)
      exact Or.inr ⟨List.singleton_inj.mp hl, hc⟩
    · rw [List.concat_eq_append, ← List.cons_append, ← List.append_assoc] at ht
      obtain ⟨rfl, -⟩ := List.append_inj' ht rfl
      exact Or.inl ⟨u, v, s₁, rfl, hu, hc⟩
  · rintro (⟨u, v, s₁, rfl, hu, hc⟩ | ⟨rfl, hc⟩)
    · exact ⟨u, v ++ [l], s₁, by simp, hu, hc⟩
    · exact ⟨t, [], s, rfl, hs, hc⟩

/-- When no fixture teardown fails, the root's sweep leaves nothing behind. -/
theorem not_leavesBehind (h : FixtureTeardownsPass t) : ¬ LeavesBehind G s₀ t := by
  rintro ⟨u, v, s, rfl, -⟩
  exact Bool.noConfusion (h _ (List.mem_append_right _ List.mem_cons_self))

/-- When the root does not wait for what is inside, nothing else changes what the manager has. -/
theorem root_alone (hx : run config g = some x) (hat : At G x t s) (hat' : At G x (t ++ [l]) s')
    (hj : Joint G (stage (calls t)) s l (stage (calls (t ++ [l]))) s')
    (hroot : (stage (calls t) (.group [])).ahead true = false) (hl : .group [] ≠ l.node) :
    s'.inner = s.inner := by
  obtain ⟨p, hrun⟩ := hat
  obtain ⟨p', hrun'⟩ := hat'
  have hs := sound_of_run hx hrun
  have hs' := sound_of_run hx hrun'
  have hbefore : ¬ Moving (stage (calls t)) l.node := by
    intro hm
    obtain ⟨a, ha⟩ := root_holding hx hrun (Ne.symm hl) hm
    rw [ha] at hroot
    cases hroot
  have hafter : ¬ Moving (stage (calls (t ++ [l]))) l.node := by
    intro hm
    obtain ⟨a, ha⟩ := root_holding hx hrun' (Ne.symm hl) hm
    rw [← hj.stage_ne hl, ha] at hroot
    cases hroot
  rcases inner_of_joint hs.held hs.owned hj l.node.isTest with hi | hdue | ⟨n, rfl⟩ | ⟨-, hm, -⟩
  · exact hi
  · exact absurd (hdue.moving hs'.held) hafter
  · obtain ⟨task, ht⟩ := exists_task hj.actStep
    cases (hs.held.task_eq_none hbefore).symm.trans ht
  · exact absurd hm hbefore

section Over

variable {σ σ' : NodeId → Stage}

theorem RootOver.not_ahead (h : RootOver σ s) (hs : Held σ s) :
    (σ (.group [])).ahead true = false := by
  obtain ⟨r, hr⟩ | ⟨r, hr⟩ | hr := h
  · have hfits := hs.task (.group [])
    rw [hr] at hfits
    generalize σ (.group []) = q at hfits
    cases hfits
    rfl
  · rw [hr]
    rfl
  · rw [hr]
    rfl

theorem over_advance {c : OpCall} {q q' : Stage} (h : Advance c q s q' s')
    (hover : (∃ r, s.tasks c.1.node = some (.teardownDone r) ∧ q = .tearing) ∨
      (∃ r, q = .torn r) ∨ q = .closed) :
    (q' = q ∧ s'.tasks c.1.node = s.tasks c.1.node ∨ (∃ r, q' = .torn r) ∨ q' = .closed) ∧
      s'.inner = s.inner := by
  cases h with
  | enter _ | report _ | record _ _ _ => exact ⟨Or.inl ⟨rfl, rfl⟩, rfl⟩
  | joinTeardown _ => exact ⟨Or.inr (Or.inl ⟨_, rfl⟩), rfl⟩
  | close _ => exact ⟨Or.inr (Or.inr rfl), rfl⟩
  | spawnSetup | joinSetup _ | spawnTest | joinTest _ | drop | spawnTeardown =>
    obtain ⟨r, -, hq⟩ | ⟨r, hq⟩ | hq := hover <;> cases hq

/-- When the root has been torn down it has only to say so. -/
theorem RootOver.step (h : RootOver σ s) (hs : Held σ s) (hj : Joint G σ s l σ' s')
    (hl : l.node = .group []) : RootOver σ' s' ∧ s'.inner = s.inner := by
  have hfits := hs.task (.group [])
  cases hj with
  | @act a _ hact =>
    rw [Label.node] at hl
    obtain ⟨task, ht⟩ := exists_task hact
    rw [hl] at ht
    obtain ⟨r, hr⟩ | ⟨r, hr⟩ | hr := h
    · have hdone : s.tasks a.node = some (.teardownDone r) := by rw [hl, hr]
      exact absurd hdone (not_done_of_act hact r)
    · rw [hr, ht] at hfits
      cases hfits
    · rw [hr, ht] at hfits
      cases hfits
  | @call c q _ hadv =>
    unfold Label.node at hl
    unfold RootOver at h ⊢
    rw [← hl] at h hfits ⊢
    rw [Function.update_self]
    have hover : (∃ r, s.tasks c.1.node = some (.teardownDone r) ∧ σ c.1.node = .tearing) ∨
        (∃ r, σ c.1.node = .torn r) ∨ σ c.1.node = .closed := by
      refine h.imp_left ?_
      rintro ⟨r, hr⟩
      refine ⟨r, hr, ?_⟩
      rw [hr] at hfits
      generalize σ c.1.node = p at hfits
      cases hfits
      rfl
    obtain ⟨⟨hq, ht⟩ | hq, hi⟩ := over_advance hadv hover
    · exact ⟨by rw [hq, ht]; exact h, hi⟩
    · exact ⟨Or.inr hq, hi⟩

end Over

/-- The root does not wait for the lock in vain: nobody else is under way. -/
theorem root_not_cancelled (hx : run config g = some x) (h : Sys.Run G x t y)
    (hact : State.ActStep G y.state (.cancelTeardown (.group [])) s') : False := by
  have hs := sound_of_run hx h
  cases hact with
  | @cancelTeardown _ m ht hl =>
    have hlocked := (hs.owned.locked m).mp hl
    have hm : m ≠ .group [] := by
      rintro rfl
      rw [ht] at hlocked
      cases hlocked
    have hmoving : Moving (stage (calls t)) m := by
      by_contra hm
      rw [hs.held.task_eq_none hm] at hlocked
      cases hlocked
    obtain ⟨a, ha⟩ := root_holding hx h hm hmoving
    have hfits := hs.held.task (.group [])
    rw [ha, ht] at hfits
    cases hfits

/-- **The root is due**, or nothing is free, until its sweep leaves something behind. -/
theorem root_due (hx : run config g = some x) (h : Sys.Run G x t y) :
    (LeavesBehind G x.state t ∧ y.state.inner.cache ≠ ∅ ∧ RootOver (stage (calls t)) y.state) ∨
      ¬ LeavesBehind G x.state t ∧
        (Due true (stage (calls t)) y.state (.group []) ∨ y.state.inner.Settled) := by
  refine invariant_of_run (P := fun t s =>
    (LeavesBehind G x.state t ∧ s.inner.cache ≠ ∅ ∧ RootOver (stage (calls t)) s) ∨
      ¬ LeavesBehind G x.state t ∧ (Due true (stage (calls t)) s (.group []) ∨ s.inner.Settled))
    hx ?_ ?_ h
  · refine Or.inr ⟨?_, Or.inr fun f a hf => ?_⟩
    · rintro ⟨u, v, s, ht, -⟩
      simp at ht
    · rw [cache_of_run hx] at hf
      cases hf
  · rintro t l s s' ⟨p, hrun⟩ hat' hj ih
    have hs := sound_of_run hx hrun
    have hsnoc := leavesBehind_snoc (l := l) (Sys.run_split hrun).2
    rcases ih with ⟨hleft, hcache, hover⟩ | ⟨hleft, hdue⟩
    · -- nothing happens any more
      have hboth : RootOver (stage (calls (t ++ [l]))) s' ∧ s'.inner = s.inner := by
        by_cases hl : l.node = .group []
        · exact hover.step hs.held hj hl
        · have hl' : .group [] ≠ l.node := Ne.symm hl
          refine ⟨?_, root_alone hx ⟨p, hrun⟩ hat' hj (hover.not_ahead hs.held) hl'⟩
          unfold RootOver
          rw [hj.stage_ne hl', hj.tasks_ne hl']
          exact hover
      exact Or.inl ⟨hsnoc.mpr (Or.inl hleft), by rw [hboth.2]; exact hcache, hboth.1⟩
    · by_cases hbad : l = .act (.teardownEnd (.group []) (.error ()))
      · subst hbad
        cases hj.actStep with
        | teardownFails ht =>
          by_cases hcache : s.inner.cache = ∅
          · refine Or.inr ⟨fun h => (hsnoc.mp h).elim hleft fun h => h.2 hcache, Or.inr ?_⟩
            intro f a hf
            rw [State.panicked_inner] at hf
            change s.inner.cache.lookup f = some a at hf
            rw [hcache] at hf
            cases hf
          · refine Or.inl ⟨hsnoc.mpr (Or.inr ⟨rfl, hcache⟩), ?_, Or.inl ⟨.error (), ?_⟩⟩
            · rw [State.panicked_inner]
              exact hcache
            · simp only [State.panicked_tasks, State.setLock_tasks, State.setInner_tasks,
                State.setTask_self]
      refine Or.inr ⟨fun h => (hsnoc.mp h).elim hleft fun h => hbad h.1, ?_⟩
      by_cases hl : l.node = .group []
      · rw [← hl] at hdue ⊢
        rcases due_or_settled_of_joint hs.held hs.owned hj hdue with h | ⟨a, rfl, hf⟩ | ⟨hb, -⟩
        · exact h
        · cases a with
          | cancelTeardown n =>
            have hn : n = .group [] := hl
            subst hn
            exact (root_not_cancelled hx hrun hj.actStep).elim
          | teardownEnd n r =>
            have hn : n = .group [] := hl
            cases r with
            | ok u => cases hf
            | error e => exact absurd (by rw [hn]) hbad
          | _ => cases hf
        · cases hb
      · have hl' : .group [] ≠ l.node := Ne.symm hl
        by_cases hahead : (stage (calls t) (.group [])).ahead true = true
        · exact Or.inl (Or.inl (by rw [hj.stage_ne hl']; exact hahead))
        · have hi := root_alone hx ⟨p, hrun⟩ hat' hj (Bool.eq_false_of_not_eq_true hahead) hl'
          rcases hdue with hdue | hsettled
          · exact Or.inl (hdue.congr hj hl' hi)
          · exact Or.inr (by rw [hi]; exact hsettled)

end Leaves

end Run

end E2etest
