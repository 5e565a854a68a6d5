import E2etest.System

/-!
# What a step does to the state

`State.call` and `State.act` as relations, one constructor for each outcome: `call_cases`,
`act_cases`. Every invariant of the state is proved by cases on them. The lemmas before them read
the fields of an updated state.
-/

namespace E2etest

open Text

namespace State

variable (s : State) (n m : NodeId) (t : Option TaskState) (inner : Inner) (lock : Option NodeId)
  (r : Except Unit Unit) (q : Except Unit (Option Arc))

@[simp] theorem setTask_statistics : (s.setTask n t).statistics = s.statistics := rfl

@[simp] theorem setTask_inner : (s.setTask n t).inner = s.inner := rfl

@[simp] theorem setTask_lock : (s.setTask n t).lock = s.lock := rfl

@[simp] theorem setTask_self : (s.setTask n t).tasks n = t := if_pos rfl

theorem setTask_tasks : (s.setTask n t).tasks m = if m = n then t else s.tasks m := rfl

theorem setTask_ne (h : m ≠ n) : (s.setTask n t).tasks m = s.tasks m := if_neg h

@[simp] theorem setInner_statistics : (s.setInner inner).statistics = s.statistics := rfl

@[simp] theorem setInner_inner : (s.setInner inner).inner = inner := rfl

@[simp] theorem setInner_lock : (s.setInner inner).lock = s.lock := rfl

@[simp] theorem setInner_tasks : (s.setInner inner).tasks = s.tasks := rfl

@[simp] theorem setLock_statistics : (s.setLock lock).statistics = s.statistics := rfl

@[simp] theorem setLock_inner : (s.setLock lock).inner = s.inner := rfl

@[simp] theorem setLock_lock : (s.setLock lock).lock = lock := rfl

@[simp] theorem setLock_tasks : (s.setLock lock).tasks = s.tasks := rfl

@[simp] theorem panicked_statistics : (s.panicked n r).statistics = s.statistics := by
  cases r <;> rfl

@[simp] theorem panicked_inner : (s.panicked n r).inner = s.inner := by cases r <;> rfl

@[simp] theorem panicked_lock : (s.panicked n r).lock = s.lock := by cases r <;> rfl

@[simp] theorem panicked_tasks : (s.panicked n r).tasks = s.tasks := by cases r <;> rfl

@[simp] theorem setupPanicked_statistics : (s.setupPanicked n q).statistics = s.statistics := by
  cases q <;> rfl

@[simp] theorem setupPanicked_inner : (s.setupPanicked n q).inner = s.inner := by cases q <;> rfl

@[simp] theorem setupPanicked_lock : (s.setupPanicked n q).lock = s.lock := by cases q <;> rfl

@[simp] theorem setupPanicked_tasks : (s.setupPanicked n q).tasks = s.tasks := by cases q <;> rfl

/-- What an operation of the runner does. -/
inductive CallStep (s : State) : OpCall → State → Prop
  | enter {n : NodeId} : CallStep s ⟨.enter n, ()⟩ s
  | record {n : NodeId} {name : Str} {event : Event} {statistics : Statistics}
      (h : s.statistics.record name event = some statistics) :
      CallStep s ⟨.record n name event, ()⟩ { s with statistics }
  | spawnSetup {n : NodeId} {f : TypeId} {timeout : Duration} :
      CallStep s ⟨.spawn n (.setup f) timeout, ()⟩ (s.setTask n (some (.setup f)))
  | spawnTest {n : NodeId} {a : Arc} {timeout : Duration} :
      CallStep s ⟨.spawn n (.test a) timeout, ()⟩
        ((s.setTask n (some .test)).setInner (s.inner.hold (.body n) a))
  | spawnTeardown {n : NodeId} {timeout : Duration} :
      CallStep s ⟨.spawn n .teardown timeout, ()⟩ (s.setTask n (some .teardown))
  | joinSetup {n : NodeId} {f : TypeId} {r : Except Unit (Option Arc)}
      (h : s.tasks n = some (.setupDone r)) :
      CallStep s ⟨.join n (.setup f), r⟩ ((s.setTask n none).setInner (s.takeOutput n r))
  | joinTest {n : NodeId} {a : Arc} {r : Except Unit Unit} (h : s.tasks n = some (.testDone r)) :
      CallStep s ⟨.join n (.test a), r⟩ (s.setTask n none)
  | joinTeardown {n : NodeId} {r : Except Unit Unit} (h : s.tasks n = some (.teardownDone r)) :
      CallStep s ⟨.join n .teardown, r⟩ (s.setTask n none)
  | report {n : NodeId} :
      CallStep s ⟨.report n, ()⟩ { s with reports := s.reports ++ [(n, s.backtrace)] }
  | drop {n : NodeId} {a : Arc} :
      CallStep s ⟨.drop n a, ()⟩ (s.setInner (s.inner.release (.node n)))

theorem call_cases {s s' : State} {c : OpCall} (h : s.call c = some s') : CallStep s c s' := by
  rcases c with ⟨op, r⟩
  rcases op with n | ⟨n, name, event⟩ | ⟨n, job, timeout⟩ | ⟨n, job⟩ | n | ⟨n, a⟩
  · obtain rfl := Option.some.inj h
    exact .enter
  · obtain ⟨statistics, hr, rfl⟩ := Option.map_eq_some_iff.mp h
    exact .record hr
  · cases job <;> obtain rfl := Option.some.inj h
    · exact .spawnSetup
    · exact .spawnTest
    · exact .spawnTeardown
  · cases job <;> obtain ⟨ht, he⟩ := Option.ite_none_right_eq_some.mp h <;>
      obtain rfl := Option.some.inj he
    · exact .joinSetup ht
    · exact .joinTest ht
    · exact .joinTeardown ht
  · obtain rfl := Option.some.inj h
    exact .report
  · obtain rfl := Option.some.inj h
    exact .drop

/-- What a step of a task does. -/
inductive ActStep (G : FixtureGraph) (s : State) : Act → State → Prop
  | lockSetup {n : NodeId} {f : TypeId} (ht : s.tasks n = some (.setup f)) (hl : s.lock = none) :
      ActStep G s (.lockSetup n) ((s.setTask n (some (.setupLocked f))).setLock (some n))
  | setup {n : NodeId} {f : TypeId} {script : Script} {inner : Inner}
      {r : Except Unit (Option Arc)} (ht : s.tasks n = some (.setupLocked f))
      (hG : script.respects G f = true) (hr : s.inner.setup f (script.run []) = (inner, r)) :
      ActStep G s (.setup n script)
        ((((s.setTask n (some (.setupDone r))).setInner (giveOutput inner n r)).setLock
          none).setupPanicked n r)
  | cancelSetup {n m : NodeId} {f : TypeId} (ht : s.tasks n = some (.setup f))
      (hl : s.lock = some m) :
      ActStep G s (.cancelSetup n)
        ((s.setTask n (some (.setupDone (.error ())))).panicked n (.error ()))
  | clone {n : NodeId} {a : Arc} (ht : s.tasks n = some .test)
      (ha : a ∈ s.inner.heldBy (.body n) ∨
        ∃ b ∈ s.inner.heldBy (.body n), a ∈ s.inner.heldBy (.inst b)) :
      ActStep G s (.clone n a) (s.setInner (s.inner.hold (.body n) a))
  | testEnd {n : NodeId} {r : Except Unit Unit} (ht : s.tasks n = some .test) :
      ActStep G s (.testEnd n r)
        (((s.setTask n (some (.testDone r))).setInner (s.inner.release (.body n))).panicked n r)
  | lockTeardown {n : NodeId} (ht : s.tasks n = some .teardown) (hl : s.lock = none) :
      ActStep G s (.lockTeardown n)
        ((s.setTask n (some (.sweep s.inner.cache.keys false))).setLock (some n))
  | take {n : NodeId} {f : TypeId} {pending : List TypeId} {foundAny : Bool} {a : Arc}
      (ht : s.tasks n = some (.sweep pending foundAny)) (hc : s.inner.cache.lookup f = some a)
      (hf : f ∈ pending) (h1 : s.inner.strongCount a = 1) :
      ActStep G s (.visit n f)
        ((s.setTask n (some (.extracted (pending.erase f) a))).setInner
          ((s.inner.extract f).hold (.task n) a))
  | keep {n : NodeId} {f : TypeId} {pending : List TypeId} {foundAny : Bool} {a : Arc}
      (ht : s.tasks n = some (.sweep pending foundAny)) (hc : s.inner.cache.lookup f = some a)
      (hf : f ∈ pending) (h1 : s.inner.strongCount a ≠ 1) :
      ActStep G s (.visit n f) (s.setTask n (some (.sweep (pending.erase f) foundAny)))
  | unwrap {n : NodeId} {pending : List TypeId} {a : Arc}
      (ht : s.tasks n = some (.extracted pending a)) (h1 : s.inner.strongCount a = 1) :
      ActStep G s (.unwrap n)
        ((s.setTask n (some (.tearing pending a))).setInner
          ((s.inner.release (.task n)).log (.teardown a)))
  | unwrapFails {n : NodeId} {pending : List TypeId} {a : Arc}
      (ht : s.tasks n = some (.extracted pending a)) (h1 : s.inner.strongCount a ≠ 1) :
      ActStep G s (.unwrap n)
        ((((s.setTask n (some (.teardownDone (.error ())))).setInner
          (s.inner.release (.task n))).setLock none).panicked n (.error ()))
  | teardownEnd {n : NodeId} {pending : List TypeId} {a : Arc}
      (ht : s.tasks n = some (.tearing pending a)) :
      ActStep G s (.teardownEnd n (.ok ()))
        ((s.setTask n (some (.sweep pending true))).setInner (s.inner.release (.inst a)))
  | teardownFails {n : NodeId} {pending : List TypeId} {a : Arc}
      (ht : s.tasks n = some (.tearing pending a)) :
      ActStep G s (.teardownEnd n (.error ()))
        ((((s.setTask n (some (.teardownDone (.error ())))).setInner
          (s.inner.release (.inst a))).setLock none).panicked n (.error ()))
  | nextPass {n : NodeId} (ht : s.tasks n = some (.sweep [] true)) :
      ActStep G s (.nextPass n) (s.setTask n (some (.sweep s.inner.cache.keys false)))
  | sweepEnd {n : NodeId} (ht : s.tasks n = some (.sweep [] false)) :
      ActStep G s (.sweepEnd n) ((s.setTask n (some (.teardownDone (.ok ())))).setLock none)
  | cancelTeardown {n m : NodeId} (ht : s.tasks n = some .teardown) (hl : s.lock = some m) :
      ActStep G s (.cancelTeardown n)
        ((s.setTask n (some (.teardownDone (.error ())))).panicked n (.error ()))

theorem act_cases {G : FixtureGraph} {s s' : State} {a : Act} (h : s.act G a = some s') :
    ActStep G s a s' := by
  cases a with
  | lockSetup n =>
    simp only [act] at h
    split at h
    · rename_i f ht hl
      obtain rfl := Option.some.inj h
      exact .lockSetup ht hl
    · cases h
  | setup n script =>
    simp only [act] at h
    split at h
    · rename_i f ht
      obtain ⟨hG, he⟩ := Option.ite_none_right_eq_some.mp h
      obtain rfl := Option.some.inj he
      exact .setup ht hG rfl
    · cases h
  | cancelSetup n =>
    simp only [act] at h
    split at h
    · rename_i f m ht hl
      obtain rfl := Option.some.inj h
      exact .cancelSetup ht hl
    · cases h
  | clone n a =>
    obtain ⟨⟨ht, ha⟩, he⟩ := Option.ite_none_right_eq_some.mp h
    obtain rfl := Option.some.inj he
    exact .clone ht ha
  | testEnd n r =>
    obtain ⟨ht, he⟩ := Option.ite_none_right_eq_some.mp h
    obtain rfl := Option.some.inj he
    exact .testEnd ht
  | lockTeardown n =>
    simp only [act] at h
    split at h
    · rename_i ht hl
      obtain rfl := Option.some.inj h
      exact .lockTeardown ht hl
    · cases h
  | visit n f =>
    simp only [act] at h
    split at h
    · rename_i pending foundAny a ht hc
      obtain ⟨hf, he⟩ := Option.ite_none_right_eq_some.mp h
      split at he
      · rename_i h1
        obtain rfl := Option.some.inj he
        exact .take ht hc hf h1
      · rename_i h1
        obtain rfl := Option.some.inj he
        exact .keep ht hc hf h1
    · cases h
  | unwrap n =>
    simp only [act] at h
    split at h
    · rename_i pending a ht
      split at h
      · rename_i h1
        obtain rfl := Option.some.inj h
        exact .unwrap ht h1
      · rename_i h1
        obtain rfl := Option.some.inj h
        exact .unwrapFails ht h1
    · cases h
  | teardownEnd n r =>
    simp only [act] at h
    split at h
    · rename_i pending a ht
      cases r with
      | ok u =>
        obtain rfl := Option.some.inj h
        exact .teardownEnd ht
      | error e =>
        obtain rfl := Option.some.inj h
        exact .teardownFails ht
    · cases h
  | nextPass n =>
    simp only [act] at h
    split at h
    · rename_i ht
      obtain rfl := Option.some.inj h
      exact .nextPass ht
    · cases h
  | sweepEnd n =>
    simp only [act] at h
    split at h
    · rename_i ht
      obtain rfl := Option.some.inj h
      exact .sweepEnd ht
    · cases h
  | cancelTeardown n =>
    simp only [act] at h
    split at h
    · rename_i m ht hl
      obtain rfl := Option.some.inj h
      exact .cancelTeardown ht hl
    · cases h

/-- A task takes no record. -/
theorem act_statistics {G : FixtureGraph} {s s' : State} {a : Act} (h : s.act G a = some s') :
    s'.statistics = s.statistics := by
  cases act_cases h <;> simp

end State

end E2etest
