import E2etest.Lifetime
import E2etest.Settling

/-!
# No residue

When no fixture teardown fails and no teardown call times out on the lock, nothing is left over:
whenever the last operation of the runner was the end of a teardown and no test is in flight, the
cache has just what can be reached from the fixtures of the open groups (`no_residue`). So what a
setup returns later was there for them, or is permanent, or has been made since. When the run is over
the cache is empty, whatever has timed out on the lock.

A test whose teardown call times out on the lock leaves its fixture to the next sweep
(`residue_of_timeout`).
-/

namespace E2etest

open Async Text Prog E2etest.Inner

/-! ## Stages and records -/

theorem teardownEvent_concat (n : NodeId) (name : Str) (kind : Task) (f : Fixture) (dt : Duration)
    (r : Except Unit (Option Arc)) (mid : List OpCall) (down : Except Unit Unit) :
    ∃ v, spanWord n name kind f dt r mid down = v ++ [recorded n name (teardownEvent down)] := by
  unfold spanWord closeWord teardownWord
  exact ⟨_, by simp only [← List.append_assoc]; rfl⟩

theorem teardownEvent_not_mem (kind : Task) (r : Except Unit (Option Arc))
    (body down down' : Except Unit Unit) :
    teardownEvent down' ∉ (nodeEvents kind r body down).dropLast := by
  unfold nodeEvents
  rcases r with e | _ | a <;> cases kind <;> cases down' <;> cases body <;>
    simp [setupEvent, testEvent, teardownEvent]

/-- The event that ends a teardown is the last one of a node. -/
theorem ended_of_span {n : Node} {dt : Duration} {v w : List OpCall} (h : IsSpan n dt w)
    (hv : v <+: w) {down : Except Unit Unit}
    (he : teardownEvent down ∈ (entries v).map EventEntry.event) : v = w := by
  obtain ⟨q, body, down', hevents⟩ := h.entries
  obtain ⟨r, mid, down'', rfl, -⟩ := h
  obtain ⟨u, hu⟩ := teardownEvent_concat n.id n.path n.kind n.fixture dt r mid down''
  rw [hu] at hv hevents ⊢
  rcases List.prefix_concat_iff.mp hv with rfl | hv
  · rfl
  -- before the last operation there is no such event
  have hlast : (entries u).map EventEntry.event ++ [teardownEvent down''] =
      nodeEvents n.kind q body down' := by
    have := congrArg (List.map EventEntry.event) hevents
    rw [List.map_map, Function.comp_def, List.map_id', entries_append, List.map_append] at this
    exact this
  have hmem : teardownEvent down ∈ (entries u).map EventEntry.event := by
    obtain ⟨u', rfl⟩ := hv
    rw [entries_append, List.map_append]
    exact List.mem_append_left _ he
  have hdrop := congrArg List.dropLast hlast
  rw [List.dropLast_concat] at hdrop
  rw [hdrop] at hmem
  exact absurd hmem (teardownEvent_not_mem _ _ _ _ _)

/-- A node that has left its first stage has recorded that its setup is launched. -/
theorem started_of_span {n : Node} {dt : Duration} {v w : List OpCall} (h : IsSpan n dt w)
    (hv : v <+: w) :
    Stage.after v = some .idle ∨ .setupLaunched ∈ (entries v).map EventEntry.event := by
  obtain ⟨r, mid, down, rfl, -⟩ := h
  unfold spanWord openWord setupWord at hv
  rw [List.cons_append, List.cons_append, List.cons_append] at hv
  rcases List.prefix_cons_iff.mp hv with rfl | ⟨v₁, rfl, hv₁⟩
  · exact Or.inl rfl
  rcases List.prefix_cons_iff.mp hv₁ with rfl | ⟨v₂, rfl, -⟩
  · exact Or.inl rfl
  · exact Or.inr (by simp [entries, entryOf])

section Word

variable {config : Config} {g : Group} {s w : List OpCall} {n : Node}

theorem RunWord.stage_of_ended (hw : RunWord config g w) (hs : s <+: w) (hn : n ∈ g.nodes [] [])
    (down : Except Unit Unit) (he : teardownEvent down ∈ eventsOf n.id s) :
    stage s n.id = .closed := by
  rw [eventsOf_eq] at he
  rcases hw.proj hn with hnil | hspan
  · have hpre := proj_mono (n := n.id) hs
    rw [hnil] at hpre
    rw [List.prefix_nil.mp hpre] at he
    cases he
  · have heq := ended_of_span hspan (proj_mono hs) he
    exact stage_of_span (heq ▸ hspan)

/-- A test that moves is in flight. -/
theorem RunWord.inFlight_of_moving (hw : RunWord config g w) (hs : s <+: w)
    (hn : n ∈ g.nodes [] []) (hm : Moving (stage s) n.id) : inFlight s n = true := by
  have hended : ∀ down, teardownEvent down ∉ eventsOf n.id s := fun down he =>
    not_moving_of_done (Or.inr (hw.stage_of_ended hs hn _ he)) hm
  have hstarted : .setupLaunched ∈ eventsOf n.id s := by
    rw [eventsOf_eq]
    rcases hw.proj hn with hnil | hspan
    · have hpre := proj_mono (n := n.id) hs
      rw [hnil] at hpre
      exact absurd hm (not_moving_of_done (Or.inl (stage_of_nil (List.prefix_nil.mp hpre))))
    · refine (started_of_span hspan (proj_mono hs)).resolve_left fun hidle => ?_
      refine not_moving_of_done (Or.inl ?_) hm
      unfold stage
      rw [hidle]
      rfl
  exact decide_eq_true ⟨hstarted, hended (.ok ()), hended (.error ())⟩

end Word

section Run

variable {G : FixtureGraph} {config : Config} {g : Group} {x y z : Sys} {t u : List Label}

/-! ## What is left -/

/-- No test is in flight. -/
def NoneInFlight (g : Group) (w : List OpCall) : Prop := ∀ n ∈ g.leaves, inFlight w n = false

/-- The fixture can be reached from one that an open group holds. -/
def FromOpen (g : Group) (s : Inner) (a : Arc) : Prop :=
  ∃ n ∈ g.nodes [] [], n.id.isTest = false ∧ ∃ e ∈ s.heldBy (.node n.id), s.Reaches e a

/-- The fixture is permanent. -/
def Inner.Permanent (s : Inner) (a : Arc) : Prop := ∃ f, s.permanent.lookup f = some a

/-- Nothing moves when a node has just closed and no test is in flight. -/
theorem still_of_closing (hx : run config g = some x) (h : Sys.Run G x t y)
    (hc : Closing (calls t)) (hnone : NoneInFlight g (calls t)) (n : NodeId) :
    ¬ Moving (stage (calls t)) n := by
  intro hm
  cases ht : n.isTest with
  | false => exact groups_still hx h hc ht hm
  | true =>
    by_cases hnode : ∃ m ∈ g.nodes [] [], m.id = n
    · obtain ⟨m, hmem, rfl⟩ := hnode
      obtain ⟨w, hw, hpre⟩ := run_prefix hx h
      have hfly := hw.inFlight_of_moving hpre hmem hm
      rw [hnone m (Group.mem_leaves.mpr ⟨hmem, ht⟩)] at hfly
      cases hfly
    · exact not_moving_of_done (Or.inl (stage_outside hx h fun m hmem he => hnode ⟨m, hmem, he⟩)) hm

theorem settled_of_still (hx : run config g = some x) (h : Sys.Run G x t y)
    (hok : FixtureTeardownsPass t) (hlock : TeardownsGetLock t) (hc : Closing (calls t))
    (hstill : ∀ n, ¬ Moving (stage (calls t)) n) : y.state.inner.Settled := by
  refine (due_or_settled hx h hok hlock (Or.inr hc)).resolve_left ?_
  rintro ⟨n, hn⟩
  exact hstill n (hn.moving (sound_of_run hx h).held)

/-- **What is in the cache** when nothing moves and nothing is free. -/
theorem cached_iff_fromOpen (hx : run config g = some x) (h : Sys.Run G x t y)
    (hsettled : y.state.inner.Settled) (hstill : ∀ n, ¬ Moving (stage (calls t)) n) (a : Arc) :
    y.state.inner.Cached a ↔ FromOpen g y.state.inner a ∧ ¬ y.state.inner.Permanent a := by
  have hs := sound_of_run hx h
  constructor
  · intro ha
    obtain ⟨n, e, hn, he, hreach⟩ := reached_of_settled hs.held hs.owned hsettled hstill ha
    refine ⟨?_, ?_⟩
    · by_cases hnode : ∃ m ∈ g.nodes [] [], m.id = n
      · obtain ⟨m, hmem, rfl⟩ := hnode
        refine ⟨m, hmem, ?_, e, mem_heldBy.mpr he, hreach⟩
        have hm := hstill m.id
        unfold Moving at hm
        rw [hn] at hm
        exact Bool.eq_false_of_not_eq_true hm
      · have hidle := stage_outside hx h fun m hmem he => hnode ⟨m, hmem, he⟩
        cases hn.symm.trans hidle
    · rintro ⟨f, hf⟩
      obtain ⟨k, hk⟩ := ha
      obtain rfl := hs.owned.ok.key_unique (find_of_permanent hf) (hs.owned.ok.find_of_cache hk)
      exact hs.owned.ok.not_permanent hk (AList.lookup_isSome.mp (by rw [hf]; rfl))
  · rintro ⟨⟨n, -, -, e, he, hreach⟩, hperm⟩
    obtain ⟨⟨f, hf⟩, -⟩ := hs.owned.reaches (mem_heldBy.mp he) hreach
    refine ⟨f, (hs.owned.ok.find_iff.mp hf).resolve_left fun hp => hperm ⟨f, hp⟩⟩

/-! ## What comes after -/

/-- What a step returns was there, or it has made it. -/
theorem returned_step {s s' : State} {l : Label} (h : s.Uses G l s') (hs : s.Owned) :
    ∃ new, s'.inner.calls = s.inner.calls ++ new ∧
      ∀ f a, .returned f (some a) ∈ new → s.inner.find f = some a ∨ .made f a ∈ new := by
  have hnone : s'.inner.calls = s.inner.calls → ∃ new, s'.inner.calls = s.inner.calls ++ new ∧
      ∀ f a, .returned f (some a) ∈ new → s.inner.find f = some a ∨ .made f a ∈ new := fun he =>
    ⟨[], by rw [he, List.append_nil], fun f a ha => absurd ha List.not_mem_nil⟩
  cases h with
  | call ha h =>
    cases h with
    | @joinSetup n f r _ => rcases r with e | _ | a <;> exact hnone rfl
    | enter | record _ | spawnSetup | spawnTest | spawnTeardown | joinTest _ | joinTeardown _
    | report | drop => exact hnone rfl
  | act h =>
    cases h with
    | @setup n f script inner r hn hG hr =>
      obtain ⟨⟨-, hext, -⟩, -⟩ := setup_run_spec hG hs.ok hr
      obtain ⟨new, hnew, -, hrun, -⟩ := hext.calls
      refine ⟨new, ?_, fun f a ha => hrun.returned ha⟩
      rw [State.setupPanicked_inner]
      rcases r with e | _ | b <;> exact hnew
    | @unwrap n pending a hn _ => exact ⟨[.teardown a], rfl, by simp⟩
    | lockSetup _ _ | clone _ _ | lockTeardown _ _ | take _ _ _ _ | keep _ _ _ _ | teardownEnd _
    | nextPass _ | sweepEnd _ => exact hnone rfl
    | cancelSetup _ _ | testEnd _ | unwrapFails _ _ | teardownFails _ | cancelTeardown _ _ =>
      exact hnone (by rw [State.panicked_inner]; rfl)

/-- **What setups return later** was there when no task was under way, or has been made since. -/
theorem returned_later (hx : run config g = some x) (h : Sys.Run G x t y) (hu : Sys.Run G y u z)
    (hstill : ∀ n, y.state.tasks n = none) :
    ∃ new, z.state.inner.calls = y.state.inner.calls ++ new ∧
      ∀ f a, .returned f (some a) ∈ new → y.state.inner.find f = some a ∨ .made f a ∈ new := by
  induction hu with
  | refl => exact ⟨[], by rw [List.append_nil], fun f a ha => absurd ha List.not_mem_nil⟩
  | @tail v z z' l hv hs ih =>
    obtain ⟨new, hnew, hreturned⟩ := ih
    cases l with
    | none =>
      cases hs
      exact ⟨new, hnew, hreturned⟩
    | some l =>
      have hrun := h.trans hv
      have hy := sound_of_run hx h
      have hz := sound_of_run hx hrun
      obtain ⟨new', hnew', hstep⟩ :=
        returned_step (hz.held.uses (joint_of_step hx hrun hs)) hz.owned
      refine ⟨new ++ new', by rw [hnew', hnew, List.append_assoc], fun f a ha => ?_⟩
      rcases List.mem_append.mp ha with ha | ha
      · exact (hreturned f a ha).imp_right (List.mem_append_left _)
      rcases hstep f a ha with hf | hm
      swap
      · exact Or.inr (List.mem_append_right _ hm)
      -- it is in the maps: it is permanent, or has been made before or after
      obtain ⟨q, hq, hlive⟩ := hz.logged.calls
      rcases hq.source ((hlive f a).mpr (Or.inl hf)) with hp | hm
      · rw [← hy.logged.permanent] at hp
        exact Or.inl (find_of_permanent hp)
      rw [hnew] at hm
      rcases List.mem_append.mp hm with hm | hm
      swap
      · exact Or.inr (List.mem_append_left _ hm)
      have htorn : .teardown a ∉ y.state.inner.calls := fun hd =>
        hz.not_torn hf (hnew ▸ List.mem_append_left _ hd)
      obtain ⟨p, hp, hlive'⟩ := hy.logged.calls
      rcases (hlive' f a).mp (hp.live_of_made hm htorn) with hf' | ⟨⟨n, pending, hn⟩, -⟩
      · exact Or.inl hf'
      · rw [hstill n] at hn
        cases hn

/-- The end of a teardown closes the node. -/
theorem closing_of_ends (hx : run config g = some x) (h : Sys.Run G x t y) {v : List OpCall}
    {n : NodeId} {name : Str} (down : Except Unit Unit)
    (hv : calls t = v ++ [recorded n name (teardownEvent down)]) : Closing (calls t) := by
  obtain ⟨w, hw, hpre⟩ := run_prefix hx h
  have hmem : recorded n name (teardownEvent down) ∈ calls t := by
    rw [hv]
    exact List.mem_append_right _ (List.mem_singleton_self _)
  obtain ⟨m, hm, hid⟩ := hw.nodes _ (hpre.subset hmem)
  refine ⟨v, _, hv, ?_⟩
  rw [← hid]
  refine hw.stage_of_ended hpre hm down ?_
  exact List.mem_filterMap.mpr ⟨_, hmem, by rw [hid]; exact if_pos rfl⟩

/-- When the runner has returned, nothing moves. -/
theorem still_of_completes {s : State} (hx : run config g = some x) (h : Sys.Completes G x t s)
    (n : NodeId) : stage (calls t) n = .idle ∨ stage (calls t) n = .closed := by
  have hw := completes_runWord hx h
  by_cases hnode : ∃ m ∈ g.nodes [] [], m.id = n
  · obtain ⟨m, hmem, rfl⟩ := hnode
    exact hw.stage_complete hmem rfl
  · exact Or.inl (stage_outside hx h fun m hmem he => hnode ⟨m, hmem, he⟩)

/-- **When the runner has returned nothing is free**, unless the root's sweep has left something. -/
theorem settled_of_completes {s : State} (hx : run config g = some x) (h : Sys.Completes G x t s)
    (hleft : ¬ LeavesBehind G x.state t) : s.inner.Settled := by
  have hdone := still_of_completes hx h (.group [])
  obtain ⟨hleaves, -⟩ | ⟨-, hdue⟩ := root_due hx h
  · exact absurd hleaves hleft
  · refine hdue.resolve_left ?_
    rintro (hahead | ⟨task, ht, -⟩)
    · rcases hdone with hd | hd <;> rw [hd] at hahead <;> cases hahead
    · cases ((sound_of_run hx h).held.task_eq_none (not_moving_of_done hdone)).symm.trans ht

/-- When the runner has returned and nothing is free, the cache is empty. -/
theorem cache_of_completes {s : State} (hx : run config g = some x) (h : Sys.Completes G x t s)
    (hsettled : s.inner.Settled) : s.inner.cache = ∅ := by
  have hdone := still_of_completes hx h
  have hnone : ∀ f a, s.inner.cache.lookup f ≠ some a := by
    intro f a hf
    have hstill : ∀ n, ¬ Moving (stage (calls t)) n := fun n => not_moving_of_done (hdone n)
    have hs := sound_of_run hx h
    obtain ⟨n, e, hn, -⟩ := reached_of_settled hs.held hs.owned hsettled hstill ⟨f, hf⟩
    rcases hdone n with hd | hd <;> cases hn.symm.trans hd
  refine AList.ext (List.eq_nil_iff_forall_not_mem.mpr ?_)
  rintro ⟨f, a⟩ hmem
  exact hnone f a (AList.mem_lookup_iff.mpr hmem)

/-- **No residue**, as long as no fixture teardown fails. When no teardown call has timed out on the
lock either, the last operation was the end of a teardown and no test is in flight, the cache has
just what can be reached from the fixtures of the open groups and is not permanent; what a setup
returns later is among that, or permanent, or made since. When the run is over the cache is empty,
with or without such timeouts: nobody is there to keep the root from its lock. -/
theorem no_residue (hx : run config g = some x) (h : Sys.Run G x t y)
    (hok : FixtureTeardownsPass t) :
    (TeardownsGetLock t → (∃ v n name, calls t = v ++ [recorded n name .teardownPassed]) →
      NoneInFlight g (calls t) →
      (∀ a, y.state.inner.Cached a ↔
        FromOpen g y.state.inner a ∧ ¬ y.state.inner.Permanent a) ∧
      ∀ u z, Sys.Run G y u z → ∃ new, z.state.inner.calls = y.state.inner.calls ++ new ∧
        ∀ f a, .returned f (some a) ∈ new →
          .made f a ∈ new ∨ y.state.inner.Permanent a ∨ FromOpen g y.state.inner a) ∧
    (y.prog = .pure () → y.state.inner.cache = ∅) := by
  refine ⟨?_, fun hy => ?_⟩
  · rintro hlock ⟨v, n, name, hv⟩ hnone
    have hc := closing_of_ends hx h (.ok ()) hv
    have hstill := still_of_closing hx h hc hnone
    have hs := sound_of_run hx h
    have hcached :=
      cached_iff_fromOpen hx h (settled_of_still hx h hok hlock hc hstill) hstill
    refine ⟨hcached, fun u z hu => ?_⟩
    obtain ⟨new, hnew, hreturned⟩ := returned_later hx h hu fun n => hs.held.task_eq_none (hstill n)
    refine ⟨new, hnew, fun f a ha => ?_⟩
    rcases hreturned f a ha with hf | hm
    · rcases hs.owned.ok.find_iff.mp hf with hp | hc
      · exact Or.inr (Or.inl ⟨f, hp⟩)
      · exact Or.inr (Or.inr ((hcached a).mp ⟨f, hc⟩).1)
    · exact Or.inl hm
  · obtain ⟨p, s⟩ := y
    obtain rfl : p = .pure () := hy
    exact cache_of_completes hx h (settled_of_completes hx h (not_leavesBehind hok))

/-- When the first test is over, the fixture of the group and what that holds are left. -/
theorem no_residue_twoTests : ∃ x t y, run {} twoTests = some x ∧ Sys.Run .onSmaller x t y ∧
    y.state.inner.cache.keys = [1, 0] ∧
    (∀ a, y.state.inner.Cached a ↔
      FromOpen twoTests y.state.inner a ∧ ¬ y.state.inner.Permanent a) ∧
    ∀ u z, Sys.Run .onSmaller y u z → ∃ new, z.state.inner.calls = y.state.inner.calls ++ new ∧
      ∀ f a, .returned f (some a) ∈ new →
        .made f a ∈ new ∨ y.state.inner.Permanent a ∨ FromOpen twoTests y.state.inner a := by
  obtain ⟨x, t, y, hx, h, hP⟩ := exists_run_of_reaches .onSmaller nestedScripts {} twoTests 42
    (fun t s => FixtureTeardownsPass t ∧ TeardownsGetLock t ∧ s.inner.cache.keys = [1, 0] ∧
      (∀ n ∈ twoTests.leaves, inFlight (calls t) n = false) ∧
      (calls t).getLast?.map Sigma.fst =
        some (.record (.test [0] 0) ['r', ':', ':', 'a', ':', ':', 'b'] .teardownPassed))
    (by decide +kernel)
  obtain ⟨hok, hlock, hkeys, hnone, hlast⟩ := of_decide_eq_true hP
  obtain ⟨⟨op, r⟩, hc, rfl⟩ := Option.map_eq_some_iff.mp hlast
  obtain ⟨v, hv⟩ := List.getLast?_eq_some_iff.mp hc
  exact ⟨x, t, y, hx, h, hkeys, (no_residue hx h hok).1 hlock ⟨v, _, _, hv⟩ hnone⟩

/-- A group with two tests that may overlap, each with a fixture of its own. -/
def overlappingTests : Group := .mk ['r'] { typeId := 0, testCanRunConcurrently := true }
  [{ name := ['a'], fixture := { typeId := 1, testCanRunConcurrently := true } },
    { name := ['b'], fixture := { typeId := 2, testCanRunConcurrently := true } }] []

/-- The choices for some operations, with what is done before a task is joined. -/
def choicesOf (lift : OpCall → Sys.Choice) (before : List Sys.Choice) (w : List OpCall) :
    List Sys.Choice :=
  w.flatMap fun c =>
    match c.1 with
    | .join _ _ => before ++ [lift c]
    | _ => [lift c]

/-- The second test is torn down while the first one sweeps, after the sweep has passed over its
fixture: the teardown call times out on the lock. -/
def timedOutOnLock : List Sys.Choice :=
  let root : NodeId := .group []
  let test : Nat → NodeId := .test []
  let name : Nat → Str := fun i => if i = 0 then "r::a".toList else "r::b".toList
  let fixture : Nat → Fixture := fun i => { typeId := i + 1, testCanRunConcurrently := true }
  let setup : NodeId → List Sys.Choice := fun n => [.act (.lockSetup n), .act (.setup n (.done []))]
  let lift : Nat → OpCall → Sys.Choice := fun i c => .prog (.run i (.call c))
  let body : Nat → List Sys.Choice := fun i =>
    choicesOf (lift i) (setup (test i))
        (openWord (test i) (name i) .test (fixture i) DEFAULT_TIMEOUT (.ok (some (i + 1)))) ++
      choicesOf (lift i) [.act (.testEnd (test i) (.ok ()))]
        (testWord (test i) (name i) (i + 1) DEFAULT_TIMEOUT (.ok ()))
  let close : Nat → List Sys.Choice → Except Unit Unit → List Sys.Choice := fun i before down =>
    choicesOf (lift i) before
      (closeWord (test i) (name i) (fixture i) DEFAULT_TIMEOUT (.ok (some (i + 1))) down)
  let sweep : List Sys.Choice :=
    [.act (.lockTeardown (test 0)), .act (.visit (test 0) 0), .act (.visit (test 0) 2),
      .act (.visit (test 0) 1), .act (.unwrap (test 0)), .act (.teardownEnd (test 0) (.ok ())),
      .act (.nextPass (test 0)), .act (.visit (test 0) 0), .act (.visit (test 0) 2)]
  choicesOf (fun c => .prog (.call c)) (setup root)
      (openWord root ['r'] .group { typeId := 0 } DEFAULT_TIMEOUT (.ok (some 0))) ++
    [.prog .start, .prog .start] ++ body 0 ++ body 1 ++
    close 0 (sweep ++ close 1 [.act (.cancelTeardown (test 1))] (.error ()) ++
      [.act (.sweepEnd (test 0))]) (.ok ())

/-- **A teardown call that times out on the lock leaves its fixture behind.** No fixture fails to be
torn down, both tests are over, and the fixture of the second one is still in the cache. -/
theorem residue_of_timeout : ∃ x t y, run { concurrency := 2 } overlappingTests = some x ∧
    Sys.Run noDependencies x t y ∧ FixtureTeardownsPass t ∧
    (∃ v n name, calls t = v ++ [recorded n name .teardownPassed]) ∧
    NoneInFlight overlappingTests (calls t) ∧
    ∃ a, y.state.inner.Cached a ∧ ¬ FromOpen overlappingTests y.state.inner a := by
  obtain ⟨x, t, y, hx, h, hP⟩ := exists_run_of_arrives noDependencies { concurrency := 2 }
    overlappingTests timedOutOnLock (fun t s => FixtureTeardownsPass t ∧
      s.inner.cache.lookup 2 = some 2 ∧ s.inner.arcs = [(.node (.group []), 0)] ∧
      (∀ n ∈ overlappingTests.leaves, inFlight (calls t) n = false) ∧
      (calls t).getLast?.map Sigma.fst =
        some (.record (.test [] 0) ['r', ':', ':', 'a'] .teardownPassed))
    (by decide +kernel)
  obtain ⟨hok, hcached, harcs, hnone, hlast⟩ := of_decide_eq_true hP
  obtain ⟨⟨op, r⟩, hc, rfl⟩ := Option.map_eq_some_iff.mp hlast
  obtain ⟨v, hv⟩ := List.getLast?_eq_some_iff.mp hc
  refine ⟨x, t, y, hx, h, hok, ⟨v, _, _, hv⟩, hnone, 2, ⟨2, hcached⟩, ?_⟩
  -- all that is held is the fixture of the root, and it holds nothing
  rintro ⟨n, -, -, e, he, hreach⟩
  rw [mem_heldBy, harcs] at he
  obtain ⟨-, rfl⟩ := Prod.mk.inj (List.mem_singleton.mp he)
  rcases Relation.ReflTransGen.cases_head hreach with heq | ⟨b, hb, -⟩
  · cases heq
  · unfold Inner.Holds at hb
    rw [harcs] at hb
    cases List.mem_singleton.mp hb

end Run

end E2etest
