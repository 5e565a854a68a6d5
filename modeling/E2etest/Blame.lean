import E2etest.Residue

/-!
# Who is blamed for a teardown that fails

All nodes sweep one cache. `failures` lists the teardowns that fail in a run, each with the node whose
sweep it is part of and the fixture, or none if the node's teardown timed out while it waited for the
lock. `obtained` lists what the setup of a node has got, itself or through what it sets up.

`blame`: the failures recorded for a node are those of its own teardown, and what fails there nobody
holds any more. Which node has obtained it does not matter (`blame_of_others`).
-/

namespace E2etest

open Async Text E2etest.Inner

/-! ## What a run shows -/

/-- A teardown that fails: the node whose teardown it is, and the fixture. -/
def failure (s : State) : Label → Option (NodeId × Option Arc)
  | .act (.teardownEnd n (.error ())) =>
    match s.tasks n with
    | some (.tearing _ a) => some (n, some a)
    | _ => none
  | .act (.cancelTeardown n) => some (n, none)
  | _ => none

/-- The teardowns that fail. -/
def failures (G : FixtureGraph) (s : State) (t : List Label) : List (NodeId × Option Arc) :=
  s.gather G (fun s l _ => (failure s l).toList) t

/-- The fixture of a call. -/
def FixtureCall.arc? : FixtureCall → Option Arc
  | .made _ a => some a
  | .returned _ r => r
  | .setup _ | .teardown _ => none

/-- What the setup of a node has got, itself or through what it sets up. -/
def obtained (G : FixtureGraph) (n : NodeId) (s : State) (t : List Label) : List Arc :=
  s.gather G (fun s l s' =>
    match l with
    | .act (.setup m _) =>
      if m = n then (s'.inner.calls.drop s.inner.calls.length).filterMap FixtureCall.arc? else []
    | _ => []) t

/-! ## The invariant -/

/-- A failure of the node's teardown that has not been recorded. -/
def unrecorded : Stage → Option TaskState → Nat
  | .torn (.error ()), _ | _, some (.teardownDone (.error ())) => 1
  | _, _ => 0

theorem failure_node {s : State} {l : Label} {p : NodeId × Option Arc} (h : failure s l = some p) :
    p.1 = l.node := by
  unfold failure at h
  split at h
  · split at h
    · rw [← Option.some.inj h]
      rfl
    · cases h
  · rw [← Option.some.inj h]
    rfl
  · cases h

section Step

variable {G : FixtureGraph} {s s' : State}

/-- An operation records a failure that has not been recorded, if any. -/
theorem unrecorded_advance {c : OpCall} {q q' : Stage} (h : Advance c q s q' s')
    (hq : Fits q (s.tasks c.1.node))
    (hclosed : eventOf c.1.node c = some .teardownFailed → q' = .closed) :
    (eventOf c.1.node c).toList.count .teardownFailed + unrecorded q' (s'.tasks c.1.node) =
      unrecorded q (s.tasks c.1.node) := by
  cases h with
  | enter _ | report _ => exact Nat.zero_add _
  | @record n name event _ _ _ hne hc _ =>
    have hevent : event ≠ .teardownFailed := by
      rintro rfl
      exact hc (hclosed (if_pos rfl))
    have hcount : (eventOf n (recorded n name event)).toList.count .teardownFailed = 0 := by
      rw [eventOf, if_pos rfl]
      exact List.count_eq_zero.mpr fun hm => hevent (List.mem_singleton.mp hm).symm
    exact (congrArg (· + _) hcount).trans (Nat.zero_add _)
  | @spawnSetup n f _ s =>
    change 0 + unrecorded _ ((s.setTask n (some (.setup f))).tasks n) = unrecorded _ (s.tasks n)
    rw [State.setTask_self, show s.tasks n = none from hq.eq_none rfl]
    rfl
  | @spawnTest n a _ s =>
    change 0 + unrecorded _ ((s.setTask n (some .test)).tasks n) = unrecorded _ (s.tasks n)
    rw [State.setTask_self, show s.tasks n = none from hq.eq_none rfl]
    rfl
  | @spawnTeardown n _ s =>
    change 0 + unrecorded _ ((s.setTask n (some .teardown)).tasks n) = unrecorded _ (s.tasks n)
    rw [State.setTask_self, show s.tasks n = none from hq.eq_none rfl]
    rfl
  | @joinSetup n f r s ht =>
    change 0 + unrecorded _ ((s.setTask n none).tasks n) = unrecorded _ (s.tasks n)
    rw [State.setTask_self, ht]
    rcases r with e | _ | a <;> rfl
  | @joinTest n a r s ht =>
    change 0 + unrecorded _ ((s.setTask n none).tasks n) = unrecorded _ (s.tasks n)
    rw [State.setTask_self, ht]
    rfl
  | @joinTeardown n r s ht =>
    change 0 + unrecorded _ ((s.setTask n none).tasks n) = unrecorded _ (s.tasks n)
    rw [State.setTask_self, ht]
    rcases r with e | u <;> rfl
  | @drop n a s =>
    change 0 + unrecorded _ (s.tasks n) = unrecorded _ (s.tasks n)
    rw [show s.tasks n = none from hq.eq_none rfl]
    rfl
  | @close n name r s _ _ =>
    have hevent : eventOf n (recorded n name (teardownEvent r)) = some (teardownEvent r) := if_pos rfl
    change List.count _ (eventOf n (recorded n name (teardownEvent r))).toList +
      unrecorded _ (s.tasks n) = unrecorded _ (s.tasks n)
    rw [hevent, show s.tasks n = none from hq.eq_none rfl]
    rcases r with e | u <;> rfl

theorem unrecorded_of_fits {q : Stage} {task : TaskState} (hq : Fits q (some task)) :
    unrecorded q (some task) = if task = .teardownDone (.error ()) then 1 else 0 := by
  cases hq with
  | @teardownDone r => rcases r with e | u <;> rfl
  | _ => rfl

/-- A step of a task fails a teardown, or leaves nothing to record. -/
theorem unrecorded_act {a : Act} {q : Stage} (h : State.ActStep G s a s') (ho : s.Owned)
    (hq : Fits q (s.tasks a.node)) :
    (failure s (.act a)).toList.length = unrecorded q (s'.tasks a.node) ∧
      unrecorded q (s.tasks a.node) = 0 := by
  refine ⟨?_, ?_⟩
  · -- the state of the task after the step decides
    have hnext : ∀ task, s'.tasks a.node = some task → (failure s (.act a)).toList.length =
        (if task = .teardownDone (.error ()) then 1 else 0) →
        (failure s (.act a)).toList.length = unrecorded q (s'.tasks a.node) := by
      intro task ht hlen
      have hfits := h.fits hq
      rw [ht] at hfits ⊢
      rw [hlen, unrecorded_of_fits hfits]
    cases h with
    | clone ht _ => exact hnext _ ht rfl
    | lockSetup _ _ | lockTeardown _ _ | take _ _ _ _ | keep _ _ _ _ | unwrap _ _ | nextPass _
    | sweepEnd _ => exact hnext _ (State.setTask_self _ _ _) rfl
    | teardownEnd _ => exact hnext _ (State.setTask_self _ _ _) rfl
    | @setup n f script inner r _ _ _ => exact hnext (.setupDone r) (by simp [Act.node]) rfl
    | cancelSetup _ _ | testEnd _ | cancelTeardown _ _ => exact hnext _ (by simp [Act.node]; rfl) rfl
    | unwrapFails ht h1 => exact absurd (ho.strongCount_extracted ht) h1
    | teardownFails ht => exact hnext _ (by simp [Act.node]; rfl) (by simp [failure, ht])
  · obtain ⟨task, ht⟩ := exists_task h
    rw [ht] at hq ⊢
    rw [unrecorded_of_fits hq, if_neg]
    rintro rfl
    exact not_done_of_act h _ ht

end Step

section Run

variable {G : FixtureGraph} {config : Config} {g : Group} {x y : Sys} {t : List Label}
  {s s' : State} {l : Label} {n : NodeId}

theorem failures_snoc (hs : x.state.replay G t = some s) (hl : s.label G l = some s') :
    failures G x.state (t ++ [l]) = failures G x.state t ++ (failure s l).toList := by
  unfold failures
  rw [State.gather_append hs]
  simp only [State.gather, hl, List.append_nil]

/-- What a label adds to the events of a node. -/
theorem eventsOf_snoc (c : OpCall) :
    eventsOf n (calls (t ++ [.call c])) = eventsOf n (calls t) ++ (eventOf n c).toList := by
  rw [calls_append, eventsOf, List.filterMap_append, ← eventsOf]
  cases h : eventOf n c <;> simp [h]

theorem eventOf_ne {c : OpCall} (h : n ≠ c.1.node) : eventOf n c = none := by
  rcases c with ⟨op, r⟩
  cases op with
  | record m name event => exact if_neg (Ne.symm h)
  | _ => rfl

/-- **What has failed has been recorded, or is about to be.** -/
theorem failures_count (hx : run config g = some x) (h : Sys.Run G x t y) (n : NodeId) :
    (failures G x.state t).countP (fun p => p.1 = n) =
      (eventsOf n (calls t)).count .teardownFailed +
        unrecorded (stage (calls t) n) (y.state.tasks n) := by
  refine invariant_of_run (P := fun t s => (failures G x.state t).countP (fun p => p.1 = n) =
    (eventsOf n (calls t)).count .teardownFailed + unrecorded (stage (calls t) n) (s.tasks n))
    hx ?_ ?_ h
  · have hheld := (sound_of_run hx (Sys.Run.refl (G := G))).held
    rw [hheld.task_eq_none (not_moving_of_done (Or.inl (by rw [calls_nil, stage_nil]))), calls_nil,
      stage_nil]
    rfl
  · rintro t l s s' ⟨p, hrun⟩ ⟨p', hrun'⟩ hj ih
    have hs := sound_of_run hx hrun
    have hreplay := (Sys.run_split hrun).2
    have hlabel : s.label G l = some s' := by
      obtain ⟨s₁, hs₁, hl⟩ := Sys.run_snoc hrun'
      obtain rfl := Option.some.inj (hreplay.symm.trans hs₁)
      exact hl
    rw [failures_snoc hreplay hlabel, List.countP_append, ih]
    by_cases hn : n = l.node
    swap
    · -- a step of another node
      have hother : (failure s l).toList.countP (fun p => p.1 = n) = 0 := by
        refine List.countP_eq_zero.mpr fun p hp he => hn ?_
        rw [← failure_node (Option.mem_toList.mp hp)]
        exact (of_decide_eq_true he).symm
      have hevents : eventsOf n (calls (t ++ [l])) = eventsOf n (calls t) := by
        cases l with
        | act a => rw [calls_append, calls_act, List.append_nil]
        | call c => rw [eventsOf_snoc, eventOf_ne hn, Option.toList_none, List.append_nil]
      rw [hother, hevents, hj.stage_ne hn, hj.tasks_ne hn]
      rfl
    subst hn
    cases l with
    | act a =>
      obtain ⟨hlen, hzero⟩ : (failure s (.act a)).toList.length =
            unrecorded (stage (calls t) (Label.act a).node) (s'.tasks (Label.act a).node) ∧
          unrecorded (stage (calls t) (Label.act a).node) (s.tasks (Label.act a).node) = 0 :=
        unrecorded_act hj.actStep hs.owned (hs.held.task a.node)
      have hcount : (failure s (.act a)).toList.countP (fun p => p.1 = (Label.act a).node) =
          (failure s (.act a)).toList.length := by
        refine List.countP_eq_length.mpr fun p hp => decide_eq_true ?_
        exact failure_node (Option.mem_toList.mp hp)
      have hcalls : calls (t ++ [.act a]) = calls t := by simp
      rw [hcalls, hcount, hlen, hzero, Nat.add_zero]
    | call c =>
      have hclosed : eventOf c.1.node c = some .teardownFailed →
          stage (calls (t ++ [.call c])) c.1.node = .closed := by
        intro he
        obtain ⟨w, hw, hpre⟩ := run_prefix hx hrun'
        have hmem : c ∈ calls (t ++ [.call c]) := by simp
        obtain ⟨m, hm, hid⟩ := hw.nodes c (hpre.subset hmem)
        rw [← hid] at he ⊢
        exact hw.stage_of_ended hpre hm (.error ()) (List.mem_filterMap.mpr ⟨c, hmem, he⟩)
      have hstep := unrecorded_advance hj.advance (hs.held.task c.1.node) hclosed
      have hnone : (failure s (.call c)).toList.countP (fun p => p.1 = (Label.call c).node) = 0 := rfl
      rw [eventsOf_snoc, List.count_append, hnone, Nat.add_zero, Nat.add_assoc]
      exact congrArg _ hstep.symm

/-- Why a teardown of the node fails: what it tears down fails, which nobody holds any more, or
another task has the lock for too long. -/
def Cause (s : State) (n : NodeId) : Option Arc → Prop
  | some a => (∃ pending, s.tasks n = some (.tearing pending a)) ∧ s.inner.holders a = [] ∧
      ¬ s.inner.Alive a
  | none => s.tasks n = some .teardown ∧ ∃ m, m ≠ n ∧ s.lock = some m

theorem State.Owned.cause (h : s.Owned) (hl : s.label G l = some s') {fixture : Option Arc}
    (hf : failure s l = some (n, fixture)) : Cause s n fixture := by
  unfold failure at hf
  split at hf
  · split at hf
    · rename_i pending a hn
      obtain ⟨rfl, rfl⟩ := Prod.mk.inj (Option.some.inj hf)
      have hdead := h.tearing _ pending a hn
      refine ⟨⟨pending, hn⟩, List.eq_nil_iff_forall_not_mem.mpr fun k hk => ?_, hdead⟩
      -- what is held is in the maps, or this task has taken it out and not begun to tear it down
      rcases h.target k a (mem_holders.mp hk) with ha | ⟨m, pending', -, hm⟩
      · exact hdead ha
      · have hlock := (h.locked m).mpr (by rw [hm]; rfl)
        obtain rfl := Option.some.inj (hlock.symm.trans ((h.locked _).mpr (by rw [hn]; rfl)))
        cases hm.symm.trans hn
    · cases hf
  · rename_i m
    obtain ⟨rfl, rfl⟩ := Prod.mk.inj (Option.some.inj hf)
    have hact : s.act G (.cancelTeardown m) = some s' := hl
    cases State.act_cases hact with
    | @cancelTeardown _ k ht hlock =>
      refine ⟨ht, k, ?_, hlock⟩
      rintro rfl
      have hlocked := (h.locked _).mp hlock
      rw [ht] at hlocked
      cases hlocked
  · cases hf

/-- **Who is blamed.** A failed teardown is recorded for a node only if a teardown has failed in the
sweep of that node, or the node has waited in vain for the lock of another one. What fails is not
held by anyone any more. In a run that returns every failure is recorded once. -/
theorem blame (hx : run config g = some x) (h : Sys.Run G x t y) :
    (∀ n, .teardownFailed ∈ eventsOf n (calls t) → ∃ fixture, (n, fixture) ∈ failures G x.state t) ∧
    (∀ l s' n fixture, y.state.label G l = some s' → failure y.state l = some (n, fixture) →
      Cause y.state n fixture) ∧
    (y.prog = .pure () → ∀ n, (eventsOf n (calls t)).count .teardownFailed =
      (failures G x.state t).countP (fun p => p.1 = n)) := by
  have hs := sound_of_run hx h
  refine ⟨fun n hn => ?_, fun l s' n fixture hl hf => hs.owned.cause hl hf, fun hy n => ?_⟩
  · have hcount := failures_count hx h n
    have hpos : 0 < (eventsOf n (calls t)).count .teardownFailed := List.count_pos_iff.mpr hn
    obtain ⟨⟨m, fixture⟩, hmem, hm⟩ := List.countP_pos_iff.mp
      (show 0 < (failures G x.state t).countP (fun p => p.1 = n) by omega)
    obtain rfl : m = n := of_decide_eq_true hm
    exact ⟨fixture, hmem⟩
  · obtain ⟨p, s⟩ := y
    obtain rfl : p = .pure () := hy
    have hdone := still_of_completes hx h n
    have htask := hs.held.task_eq_none (not_moving_of_done hdone)
    have hnone : unrecorded (stage (calls t) n) (s.tasks n) = 0 := by
      rw [htask]
      rcases hdone with hd | hd <;> rw [hd] <;> rfl
    rw [failures_count hx h n, hnone, Nat.add_zero]

/-- A group with two tests. -/
def blamedTests : Group := .mk ['r'] { typeId := 0 }
  [{ name := ['x'], fixture := { typeId := 3 } }, { name := ['y'], fixture := { typeId := 4 } }] []

/-- The first test sets up two fixtures, and both fail to be torn down. -/
def blamedScripts : Scenario where
  script
    | .test [] 0 => .setup 1 (.done []) (.setup 2 (.done []) (.done []))
    | _ => .done []
  teardown a := if a = (1 : Nat) ∨ a = 2 then .error () else .ok ()

/-- A failure is recorded for the second test. -/
theorem blame_blamedTests : ∃ x t s, run {} blamedTests = some x ∧
    Sys.Completes .onSmaller x t s ∧ .teardownFailed ∈ eventsOf (.test [] 1) (calls t) ∧
    (∃ fixture, (.test [] 1, fixture) ∈ failures .onSmaller x.state t) ∧
    ∀ n, (eventsOf n (calls t)).count .teardownFailed =
      (failures .onSmaller x.state t).countP (fun p => p.1 = n) := by
  obtain ⟨x, t, s, hx, h, hP⟩ := exists_completes_of_endsWith .onSmaller blamedScripts {}
    blamedTests 100 (fun t _ => .teardownFailed ∈ eventsOf (.test [] 1) (calls t)) (by decide +kernel)
  have hmem := of_decide_eq_true hP
  obtain ⟨honly, -, hall⟩ := blame hx h
  exact ⟨x, t, s, hx, h, hmem, honly _ hmem, hall rfl⟩

/-- **The second test is blamed for a fixture of the first.** Its setup has made one fixture and
returned it, which does not fail to be torn down, and yet it is among the failed names. -/
theorem blame_of_others : ∃ x t s, run {} blamedTests = some x ∧
    Sys.Completes .onSmaller x t s ∧ .teardownFailed ∈ eventsOf (.test [] 1) (calls t) ∧
    ['r', ':', ':', 'y'] ∈ s.statistics.failedNames ∧
    obtained .onSmaller (.test [] 1) x.state t = [4, 4] ∧
    failures .onSmaller x.state t = [(.test [] 0, some 2), (.test [] 1, some 1)] := by
  obtain ⟨x, t, s, hx, h, hP⟩ := exists_completes_of_endsAfter .onSmaller blamedScripts {}
    blamedTests [] 100 (fun x t s => .teardownFailed ∈ eventsOf (.test [] 1) (calls t) ∧
      ['r', ':', ':', 'y'] ∈ s.statistics.failedNames ∧
      obtained .onSmaller (.test [] 1) x.state t = [4, 4] ∧
      failures .onSmaller x.state t = [(.test [] 0, some 2), (.test [] 1, some 1)])
    (by decide +kernel)
  exact ⟨x, t, s, hx, h, of_decide_eq_true hP⟩

end Run

end E2etest
