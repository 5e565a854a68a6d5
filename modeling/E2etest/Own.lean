import E2etest.Drive
import E2etest.Hierarchy
import E2etest.Holding

/-!
# Every node its own fixture

The macros generate a type for the fixture of each group and test, and the manager knows a fixture by
its type.

* `Program.nodup_typeIds`: no two nodes of a registered tree have fixtures of one type.
* `setup_le_one`: a fixture that is that of one node, and that no other fixture sets up, is set up once
  in a run at most: after the setup of its node no task waits to set it up.
* `own_fixtures`: so no node of a registered tree is given a fixture made for another one.
-/

namespace E2etest

open Async Text Trees

/-! ## What a setup calls -/

/-- How often `F::setup` has been called. -/
def Inner.setups (s : Inner) (f : TypeId) : Nat := s.calls.count (.setup f)

namespace Inner

variable {G : FixtureGraph} {f d : TypeId} {s : Inner}

theorem setups_log (c : FixtureCall) :
    (s.log c).setups f = s.setups f + if c = .setup f then 1 else 0 := by
  simp [setups, log, List.count_append, List.count_singleton]

@[simp] theorem setups_insert (held : List Arc) : (s.insert d held).setups f = s.setups f := by
  simp [setups, insert, List.count_append]

@[simp] theorem setups_reply (r : Except Unit (Option Arc)) :
    (s.reply d r).1.setups f = s.setups f := by
  cases r with
  | error e => rfl
  | ok a => exact (setups_log _).trans (by simp)

/-- `F::setup` is called unless there is one, and then what it calls. -/
theorem setups_setup {fSetup : Inner → Inner × Except Unit (Option (List Arc))}
    (hf : ∀ s, (fSetup s).1.setups f = s.setups f) : (s.setup d fSetup).1.setups f =
      s.setups f + if d = f ∧ ¬ (d ∈ s.permanent ∨ d ∈ s.cache) then 1 else 0 := by
  unfold setup
  by_cases hd : d ∈ s.permanent ∨ d ∈ s.cache
  · rw [if_pos hd, setups_reply, if_neg fun h => h.2 hd]
    rfl
  · have hcalled := hf (s.log (.setup d))
    rw [setups_log] at hcalled
    rw [if_neg hd]
    have hreply : ∀ u q, fSetup (s.log (.setup d)) = (u, q) → u.setups f = s.setups f +
        if d = f ∧ ¬ (d ∈ s.permanent ∨ d ∈ s.cache) then 1 else 0 := by
      intro u q hu
      rw [hu] at hcalled
      simpa [hd] using hcalled
    cases hu : fSetup (s.log (.setup d)) with
    | mk u q =>
      rw [← hreply u q hu]
      rcases q with e | _ | held
      · rfl
      · exact setups_reply _
      · exact (setups_reply _).trans (setups_insert held)

/-- A setup that may not set up `f` does not. -/
theorem setups_run (hdep : ∀ d, G.dep d f = false) (script : Script) :
    ∀ (d : TypeId) (got : List Arc) (s : Inner), script.respects G d = true →
      (script.run got s).1.setups f = s.setups f := by
  induction script with
  | done keep => exact fun _ _ _ _ => rfl
  | skip => exact fun _ _ _ _ => rfl
  | abort => exact fun _ _ _ _ => rfl
  | setup k run next ihr ihn =>
    intro d got s h
    simp only [Script.respects, Bool.and_eq_true] at h
    obtain ⟨⟨hk, hr⟩, hn⟩ := h
    have hne : k ≠ f := by
      rintro rfl
      rw [hdep] at hk
      cases hk
    have hsetup := setups_setup (s := s) (d := k) fun s => ihr k [] s hr
    rw [if_neg fun h => hne h.1, Nat.add_zero] at hsetup
    unfold Script.run
    cases hs : s.setup k (run.run []) with
    | mk u q =>
      rw [hs] at hsetup
      rcases q with e | _ | a
      · exact hsetup
      · exact (ihn d got u hn).trans hsetup
      · exact (ihn d _ u hn).trans hsetup
  | get k next ih =>
    intro d got s h
    unfold Script.run
    rcases s.get k with e | _ | a
    · rfl
    · exact ih d got s h
    · exact ih d _ s h
  | clone i j next ih =>
    intro d got s h
    unfold Script.run
    cases got[i]?.bind fun a => (s.heldBy (.inst a))[j]? with
    | none => exact ih d got s h
    | some b => exact ih d _ s h

end Inner

/-! ## One setup a run -/

/-- The task is to set up a fixture, and has not done so. -/
def toSetUp : Option TaskState → Bool
  | some (.setup _) | some (.setupLocked _) => true
  | _ => false

namespace State

variable {G : FixtureGraph} {f : TypeId} {s s' : State} {n m : NodeId}

theorem toSetUp_setTask (t : Option TaskState) : toSetUp ((s.setTask n t).tasks m) =
    if m = n then toSetUp t else toSetUp (s.tasks m) := by
  rw [setTask_tasks]
  split <;> rfl

/-- What a task does that is no setup. -/
structure Quiet (f : TypeId) (s s' : State) : Prop where
  setups : s'.inner.setups f = s.inner.setups f
  tasks : ∀ m, toSetUp (s'.tasks m) = true → toSetUp (s.tasks m) = true

/-- The task of `n` does something else now. -/
theorem Quiet.of_setTask {t : Option TaskState} (hs : s'.inner.setups f = s.inner.setups f)
    (ht : s'.tasks = (s.setTask n t).tasks) (h : toSetUp t = true → toSetUp (s.tasks n) = true) :
    Quiet f s s' := by
  refine ⟨hs, fun m hm => ?_⟩
  rw [ht, toSetUp_setTask] at hm
  by_cases hmn : m = n
  · rw [if_pos hmn] at hm
    exact hmn ▸ h hm
  · rwa [if_neg hmn] at hm

theorem quiet_of_act {a : Act} (h : ActStep G s a s') (ha : ∀ n script, a ≠ .setup n script) :
    Quiet f s s' := by
  cases h with
  | lockSetup ht => exact .of_setTask rfl rfl fun _ => by rw [ht]; rfl
  | setup => exact absurd rfl (ha _ _)
  | clone => exact ⟨rfl, fun _ h => h⟩
  | @testEnd _ r => cases r <;> exact .of_setTask rfl rfl fun h => by cases h
  | unwrap =>
    refine .of_setTask ((Inner.setups_log _).trans ?_) rfl fun h => by cases h
    rfl
  | cancelSetup | lockTeardown | take | keep | unwrapFails | teardownEnd | teardownFails | nextPass
    | sweepEnd | cancelTeardown => exact .of_setTask rfl rfl fun h => by cases h

theorem quiet_of_advance {c : OpCall} {q q' : Stage} (h : Advance c q s q' s') :
    s'.inner.setups f = s.inner.setups f ∧ (q' = .idle → q = .idle) ∧
      ∀ m, toSetUp (s'.tasks m) = true →
        toSetUp (s.tasks m) = true ∨ m = c.1.node ∧ q = .idle := by
  have hset : ∀ {n : NodeId} {t : Option TaskState}, toSetUp t = false →
      ∀ m, toSetUp ((s.setTask n t).tasks m) = true →
        toSetUp (s.tasks m) = true ∨ m = c.1.node ∧ q = .idle := by
    intro n t ht m hm
    rw [toSetUp_setTask] at hm
    by_cases hmn : m = n
    · rw [if_pos hmn, ht] at hm
      cases hm
    · rw [if_neg hmn] at hm
      exact Or.inl hm
  cases h with
  | enter | report | record | drop | close => exact ⟨rfl, by simp, fun _ hm => Or.inl hm⟩
  | @spawnSetup n d dt =>
    refine ⟨rfl, by simp, fun m hm => ?_⟩
    rw [toSetUp_setTask] at hm
    by_cases hmn : m = n
    · exact Or.inr ⟨hmn, rfl⟩
    · rw [if_neg hmn] at hm
      exact Or.inl hm
  | @joinSetup n d r =>
    rcases r with e | _ | a <;> exact ⟨rfl, by simp [Stage.afterSetup], hset rfl⟩
  | spawnTest | joinTest | spawnTeardown | joinTeardown => exact ⟨rfl, by simp, hset rfl⟩

end State

/-- The fixture that the operation spawns a setup of. -/
def spawned : OpCall → Option TypeId
  | ⟨.spawn _ (.setup d) _, _⟩ => some d
  | _ => none

/-- A node sets up its own fixture. -/
theorem IsSpan.spawned {m : Node} {dt : Duration} {w : List OpCall} (h : IsSpan m dt w) :
    w.filterMap spawned = [m.fixture.typeId] := by
  obtain ⟨r, mid, down, rfl, hpassed⟩ := h
  have hmid : mid.filterMap E2etest.spawned = [] := by
    rcases hpassed with ⟨a, -, hmid⟩ | ⟨-, rfl⟩
    · split at hmid
      · obtain ⟨timeout, body, rfl⟩ := hmid
        cases body <;> rfl
      · rw [hmid]
        rfl
    · rfl
  have hclose : (closeWord m.id m.path m.fixture dt r down).filterMap E2etest.spawned = [] := by
    rcases r with e | _ | a <;> cases down <;> rfl
  unfold spanWord
  rw [List.filterMap_append, List.filterMap_append, hmid, hclose]
  rcases r with e | _ | a <;> rfl

theorem Stage.afterSetup_ne_settingUp (r : Except Unit (Option Arc)) (d : TypeId) :
    afterSetup r ≠ .settingUp d := by
  rcases r with e | _ | a <;> exact Stage.noConfusion

theorem Stage.next_settingUp {q : Stage} {c : OpCall} {d : TypeId}
    (h : q.next c = some (.settingUp d)) : q = .settingUp d ∨ spawned c = some d := by
  unfold Stage.next at h
  split at h <;> simp_all [spawned, afterSetup_ne_settingUp]

/-- Who sets up a fixture has spawned its setup. -/
theorem Stage.mem_spawned {v : List OpCall} {d : TypeId}
    (h : Stage.after v = some (.settingUp d)) : d ∈ v.filterMap spawned := by
  induction v using List.reverseRecOn with
  | nil => cases h
  | append_singleton v c ih =>
    rw [Stage.after_append] at h
    obtain ⟨q, hq, hnext⟩ := Option.bind_eq_some_iff.mp h
    rw [List.filterMap_append, List.mem_append]
    rcases Stage.next_settingUp (by simpa using hnext) with rfl | hc
    · exact Or.inl (ih hq)
    · exact Or.inr (by simp [hc])

section Run

variable {G : FixtureGraph} {config : Config} {g : Group} {x y : Sys} {t : List Label} {f : TypeId}

/-- What a node sets up is its own fixture. -/
theorem node_of_settingUp (hx : run config g = some x) (h : Sys.Run G x t y) {m : NodeId}
    {d : TypeId} (hm : stage (calls t) m = .settingUp d) :
    ∃ k ∈ g.nodes [] [], k.id = m ∧ k.fixture.typeId = d := by
  obtain ⟨w, hw, hpre⟩ := run_prefix hx h
  have hafter : Stage.after (proj m (calls t)) = some (.settingUp d) := by
    unfold stage at hm
    cases ha : Stage.after (proj m (calls t)) with
    | none =>
      rw [ha] at hm
      cases hm
    | some q =>
      rw [ha] at hm
      exact congrArg some hm
  have hmem := Stage.mem_spawned hafter
  have hsub : d ∈ (proj m w).filterMap spawned :=
    ((proj_mono hpre).filterMap spawned).subset hmem
  rcases hw.proj_cases m with hnil | ⟨k, hk, hid, hspan⟩
  · rw [hnil] at hsub
    cases hsub
  · rw [hspan.spawned, List.mem_singleton] at hsub
    exact ⟨k, hk, hid, hsub.symm⟩

/-- The fixture `f` of the node `n` has been set up once at most, and not before the node does. -/
structure SetUp (f : TypeId) (n : NodeId) (σ : NodeId → Stage) (s : State) : Prop where
  once : s.inner.setups f ≤ 1
  fresh : σ n = .idle ∨ toSetUp (s.tasks n) = true → s.inner.setups f = 0

theorem SetUp.call {σ : NodeId → Stage} {s s' : State} {c : OpCall} {q : Stage} {n : NodeId}
    (h : SetUp f n σ s) (hadv : Advance c (σ c.1.node) s q s') :
    SetUp f n (Function.update σ c.1.node q) s' := by
  obtain ⟨hsetups, hidle, htasks⟩ := State.quiet_of_advance (f := f) hadv
  refine ⟨hsetups ▸ h.once, fun hn => hsetups.trans (h.fresh ?_)⟩
  rcases hn with hn | hn
  · by_cases hc : n = c.1.node
    · rw [hc, Function.update_self] at hn
      exact Or.inl (hc ▸ hidle hn)
    · rw [Function.update_of_ne hc] at hn
      exact Or.inl hn
  · rcases htasks n hn with hn | ⟨rfl, hq⟩
    · exact Or.inr hn
    · exact Or.inl hq

/-- The setup of a node calls `F::setup` of its own fixture, and of no other node's. -/
theorem SetUp.setup {σ : NodeId → Stage} {s s' : State} {n m : NodeId} {script : Script}
    (h : SetUp f n σ s) (hdep : ∀ d, G.dep d f = false)
    (hown : s.tasks m = some (.setupLocked f) → m = n) (hfits : Fits (σ n) (s.tasks n))
    (hact : State.ActStep G s (.setup m script) s') : SetUp f n σ s' := by
  cases hact with
  | @setup _ d _ inner r ht hG hr =>
    have hsetups := Inner.setups_setup (s := s.inner) (d := d) fun s =>
      Inner.setups_run hdep script d [] s hG
    rw [hr] at hsetups
    have hgive : (State.giveOutput inner m r).setups f = inner.setups f := by
      rcases r with e | _ | a <;> rfl
    have htask : toSetUp ((s.setTask m (some (.setupDone r))).tasks n) = true →
        n ≠ m ∧ toSetUp (s.tasks n) = true := by
      intro hn
      rw [State.toSetUp_setTask] at hn
      by_cases hnm : n = m
      · rw [if_pos hnm] at hn
        cases hn
      · rw [if_neg hnm] at hn
        exact ⟨hnm, hn⟩
    by_cases hd : d = f
    · -- the node's own setup: there has been none before
      subst hd
      obtain rfl := hown ht
      have hzero := h.fresh (Or.inr (by rw [ht]; rfl))
      refine ⟨?_, fun hn => ?_⟩
      · simp only [State.setupPanicked_inner, State.setLock_inner, State.setInner_inner, hgive]
        rw [hsetups, hzero]
        split <;> omega
      · rw [ht] at hfits
        rcases hn with hn | hn
        · rw [hn] at hfits
          cases hfits
        · exact absurd rfl (htask (by simpa using hn)).1
    · rw [if_neg fun hf => hd hf.1, Nat.add_zero] at hsetups
      refine ⟨?_, fun hn => ?_⟩
      · simp only [State.setupPanicked_inner, State.setLock_inner, State.setInner_inner, hgive]
        exact hsetups ▸ h.once
      · simp only [State.setupPanicked_inner, State.setLock_inner, State.setInner_inner, hgive]
        refine hsetups.trans (h.fresh (hn.imp_right fun hn => ?_))
        exact (htask (by simpa using hn)).2

theorem SetUp.step {σ σ' : NodeId → Stage} {s s' : State} {l : Label} {n : NodeId}
    (h : SetUp f n σ s) (hdep : ∀ d, G.dep d f = false)
    (hown : ∀ m, s.tasks m = some (.setupLocked f) → m = n) (hheld : Held σ s)
    (hj : Joint G σ s l σ' s') : SetUp f n σ' s' := by
  cases hj with
  | call hadv => exact h.call hadv
  | @act a s' hact =>
    by_cases ha : ∃ m script, a = .setup m script
    · obtain ⟨m, script, rfl⟩ := ha
      exact h.setup hdep (hown m) (hheld.task n) hact
    · have hquiet : State.Quiet f s s' := State.quiet_of_act hact fun m script he =>
        ha ⟨m, script, he⟩
      exact ⟨hquiet.setups ▸ h.once, fun hn => hquiet.setups.trans
        (h.fresh (hn.imp_right (hquiet.tasks n)))⟩

/-- **The fixture of one node is set up once at most**, where no other fixture sets it up. -/
theorem setups_le_one (hx : run config g = some x) (h : Sys.Run G x t y) {n : Node}
    (huniq : ∀ m ∈ g.nodes [] [], m.fixture.typeId = n.fixture.typeId → m = n)
    (hdep : ∀ d, G.dep d n.fixture.typeId = false) :
    y.state.inner.setups n.fixture.typeId ≤ 1 := by
  refine (invariant_of_run (P := fun t s => SetUp n.fixture.typeId n.id (stage (calls t)) s) hx ?_
    ?_ h).once
  · have hnone : x.state.inner.setups n.fixture.typeId = 0 := by
      rw [(run_spec hx).2.1, Inner.setups,
        (State.bare_withPermanent config.permanentFixtures).calls]
      rfl
    exact ⟨by omega, fun _ => hnone⟩
  · rintro t l s s' ⟨p, hp⟩ - hj hset
    have hheld := (sound_of_run hx hp).held
    refine hset.step hdep (fun m hm => ?_) hheld hj
    have hfits := hheld.task m
    rw [hm] at hfits
    have hstage : stage (calls t) m = .settingUp n.fixture.typeId := by
      generalize stage (calls t) m = q at hfits
      cases hfits
      rfl
    obtain ⟨k, hk, rfl, hf⟩ := node_of_settingUp hx hp hstage
    rw [huniq k hk hf]

end Run

/-! ## The types of a tree -/

mutual

/-- The fixtures of the groups of a tree. -/
def Group.groupFixtures : Group → List Fixture
  | .mk _ f _ gs => groupFixturesOf gs ++ [f]

def Group.groupFixturesOf : List Group → List Fixture
  | [] => []
  | g :: gs => g.groupFixtures ++ groupFixturesOf gs

end

namespace Group

theorem groupFixturesOf_eq (gs : List Group) :
    groupFixturesOf gs = (gs.map groupFixtures).flatten := by
  induction gs with
  | nil => rfl
  | cons g gs ih => rw [groupFixturesOf, ih, List.map_cons, List.flatten_cons]

/-- The fixtures of the tests of a tree. -/
def testFixtures (ts : List (List Str × Test)) : List Fixture := ts.map fun t => t.2.fixture

mutual

theorem nodes_fixtures (pos : List Nat) (parents : List Str) : ∀ g : Group,
    ((g.nodes pos parents).map Node.fixture).Perm (g.groupFixtures ++ testFixtures g.placed)
  | .mk name f ts gs => by
    have htests : (testNodes pos (parents ++ [name]) ts).map Node.fixture = ts.map Test.fixture := by
      unfold testNodes
      rw [List.map_map, ← List.zipIdx_map_fst 0 ts, List.map_map, List.zipIdx_map_fst]
      rfl
    have hplaced : testFixtures (placed (.mk name f ts gs)) =
        testFixtures (placedOf gs) ++ ts.map Test.fixture := by
      unfold testFixtures placed
      rw [List.map_map, List.map_append, List.map_map]
      rfl
    rw [nodes, List.map_cons, List.map_append, htests, hplaced, groupFixtures]
    have ih := (nodesOf_fixtures pos 0 (parents ++ [name]) gs).append_right (ts.map Test.fixture)
    refine (ih.cons f).trans ?_
    simp only [List.append_assoc, List.singleton_append]
    exact List.perm_middle.symm

theorem nodesOf_fixtures (pos : List Nat) (j : Nat) (parents : List Str) : ∀ gs : List Group,
    ((nodesOf pos j parents gs).map Node.fixture).Perm
      (groupFixturesOf gs ++ testFixtures (placedOf gs))
  | [] => .refl _
  | g :: gs => by
    have ih := (nodes_fixtures (pos ++ [j]) parents g).append
      (nodesOf_fixtures pos (j + 1) parents gs)
    rw [nodesOf, List.map_append, groupFixturesOf, placedOf, testFixtures, List.map_append]
    refine ih.trans ?_
    simp only [List.append_assoc]
    exact (List.perm_append_comm_assoc _ _ _).append_left _

end

end Group

theorem map_filterMap {α β γ : Type} {k : α → Option β} {f : β → γ} {g : α → γ}
    (h : ∀ a b, k a = some b → f b = g a) (l : List α) :
    (l.filterMap k).map f = (l.filter fun a => (k a).isSome).map g := by
  induction l with
  | nil => rfl
  | cons a l ih =>
    cases hk : k a with
    | none => rw [List.filterMap_cons_none hk, List.filter_cons_of_neg (by simp [hk]), ih]
    | some b =>
      rw [List.filterMap_cons_some hk, List.filter_cons_of_pos (by simp [hk]), List.map_cons,
        List.map_cons, ih, h a b hk]

theorem map_sublist_flatMap {α β : Type} {f : α → β} {items : α → List β}
    (h : ∀ a, f a ∈ items a) (l : List α) : (l.map f).Sublist (l.flatMap items) := by
  induction l with
  | nil => exact .slnil
  | cons a l ih => exact (List.singleton_sublist.mpr (h a)).append ih

namespace Program

variable {c : Cases} {p : Program c} {s : Scope} {root : GroupItem c}

/-- The items of the program. -/
def items (p : Program c) : List ItemPath :=
  p.groups.flatMap GroupItem.items ++ p.tests.flatMap TestItem.items

/-- The type of the fixture that `group!` generates. -/
def groupFixtureItem (g : GroupItem c) : ItemPath := (g.home, g.code.groupFixture)

/-- The type of the fixture that `#[test]` generates. -/
def testFixtureItem (t : TestItem c) : ItemPath := (t.home, t.code.testFixture)

/-- The generated types are items. -/
theorem fixtureItems_sublist :
    (p.groups.map groupFixtureItem ++ p.tests.map testFixtureItem).Sublist p.items := by
  refine (map_sublist_flatMap (fun g => ?_) p.groups).append
    (map_sublist_flatMap (fun t => ?_) p.tests)
  · simp [groupFixtureItem, GroupItem.items, GroupCode.items]
  · simp [testFixtureItem, TestItem.items, TestCode.items]

/-- The compiler gives the generated types different ids. -/
theorem nodup_filter (hinj : ∀ i ∈ p.items, ∀ j ∈ p.items, s.typeId i = s.typeId j → i = j)
    (q : GroupItem c → Bool) (q' : TestItem c → Bool) :
    ((p.groups.filter q).map (fun g => s.typeId (groupFixtureItem g)) ++
      (p.tests.filter q').map fun t => s.typeId (testFixtureItem t)).Nodup := by
  have hgroups : (p.groups.filter q).Sublist p.groups := List.filter_sublist
  have htests : (p.tests.filter q').Sublist p.tests := List.filter_sublist
  have hitems := ((hgroups.map groupFixtureItem).append (htests.map testFixtureItem)).trans
    fixtureItems_sublist
  have hnodup := (p.distinct.sublist hitems).map_on fun i hi j hj =>
    hinj i (hitems.subset hi) j (hitems.subset hj)
  rw [List.map_append, List.map_map, List.map_map] at hnodup
  exact hnodup

theorem groupFixtures_tree (n : Nat) (root : GroupItem c) :
    (p.tree s n root).map Group.groupFixtures =
      (ways (p.subgroups s) n root).map (List.map fun w => w.2.fixture s) := by
  have htree : (p.tree s n root).map Group.groupFixtures =
      unfold (p.subgroups s) (fun g fss => fss.flatten ++ [g.fixture s]) n root := by
    refine map_unfold (fun g gs => ?_) n root
    rw [Group.groupFixtures, Group.groupFixturesOf_eq]
  refine htree.trans (map_unfold (fun g wss => ?_) n root).symm
  rw [joinWays, List.map_append, List.map_map, List.map_flatten]
  rfl

/-- **No two nodes of a registered tree have fixtures of one type.** -/
theorem nodup_typeIds (hinj : ∀ i ∈ p.items, ∀ j ∈ p.items, s.typeId i = s.typeId j → i = j)
    (hroot : root ∈ p.groups) {n : Nat} {g : Group} (h : p.tree s n root = some g) :
    ((g.nodes [] []).map fun m => m.fixture.typeId).Nodup := by
  have hgroups := groupFixtures_tree (p := p) (s := s) n root
  rw [h, Option.map_some, eq_comm, Option.map_eq_some_iff] at hgroups
  obtain ⟨ws, hws, hfixtures⟩ := hgroups
  have hws := forest.ways_perm nodup_groups hroot hws
  have hg : (g.groupFixtures.map Fixture.typeId).Perm ((p.groups.filter fun j =>
      ((climb (p.parent s) root p.groups.length j).map fun above => (above, j)).isSome).map
        fun j => s.typeId (groupFixtureItem j)) := by
    rw [← hfixtures, List.map_map, ← map_filterMap (f := fun w => (w.2.fixture s).typeId)]
    · exact hws.map _
    · intro j w hw
      obtain ⟨_, _, rfl⟩ := Option.map_eq_some_iff.mp hw
      rfl
  have ht : ((Group.testFixtures g.placed).map Fixture.typeId).Perm ((p.tests.filter fun t =>
      (p.place s root t).isSome).map fun t => s.typeId (testFixtureItem t)) := by
    unfold Group.testFixtures
    rw [List.map_map, ← map_filterMap (f := fun r : List Str × Test => r.2.fixture.typeId)]
    · exact (placed_perm hroot h).map _
    · intro t r hr
      obtain ⟨i, -, hr⟩ := Option.bind_eq_some_iff.mp hr
      obtain ⟨_, _, rfl⟩ := Option.map_eq_some_iff.mp hr
      rfl
  have hnodes := (Group.nodes_fixtures [] [] g).map Fixture.typeId
  rw [List.map_map, List.map_append] at hnodes
  refine (hnodes.trans (hg.append ht)).nodup_iff.mpr ?_
  exact nodup_filter hinj _ _

end Program

/-- **Every node its own fixture**: no two nodes of a registered tree have fixtures of one type, and
in every run of it each of these fixtures is set up once at most, where no other fixture sets it
up. -/
theorem own_fixtures {c : Cases} {p : Program c} {s : Scope} {root : GroupItem c}
    (hinj : ∀ i ∈ p.items, ∀ j ∈ p.items, s.typeId i = s.typeId j → i = j)
    (hroot : root ∈ p.groups) {k : Nat} {g : Group} (hg : p.tree s k root = some g) :
    ((g.nodes [] []).map fun n => n.fixture.typeId).Nodup ∧
    ∀ (G : FixtureGraph) (config : Config) (x : Sys) (t : List Label) (y : Sys),
      run config g = some x → Sys.Run G x t y → ∀ n ∈ g.nodes [] [],
        (∀ d, G.dep d n.fixture.typeId = false) →
          y.state.inner.calls.count (.setup n.fixture.typeId) ≤ 1 := by
  have hnodup := Program.nodup_typeIds hinj hroot hg
  refine ⟨hnodup, fun G config x t y hx h n hn hdep => ?_⟩
  exact setups_le_one hx h (fun m hm he => List.inj_on_of_nodup_map hnodup hm hn he) hdep

/-- The tree of the small program. -/
def smallTree : Group :=
  .mk ['r'] { typeId := 2113, testCanRunConcurrently := true } [] [.mk ['p'] { typeId := 2111 }
    [{ name := ['a'], fixture := { typeId := 1987 } },
      { name := ['b'], fixture := { typeId := 1988 } }] []]

/-- The first test of the small program has been set up. -/
theorem own_fixtures_smallProgram : ∃ x t y, run {} smallTree = some x ∧
    Sys.Run noDependencies x t y ∧ .setup 1987 ∈ y.state.inner.calls ∧
      y.state.inner.calls.count (.setup 1987) ≤ 1 := by
  obtain ⟨x, t, y, hx, h, hP⟩ := exists_run_of_reaches noDependencies {} {} smallTree 30
    (fun _ s => decide (.setup 1987 ∈ s.inner.calls)) (by decide +kernel)
  have htree : smallProgram.tree smallScope 2 rootItem = some smallTree := rfl
  have hinj : ∀ i ∈ smallProgram.items, ∀ j ∈ smallProgram.items,
      smallScope.typeId i = smallScope.typeId j → i = j := by decide +kernel
  exact ⟨x, t, y, hx, h, of_decide_eq_true hP, (own_fixtures hinj (by decide) htree).2
    noDependencies {} x t y hx h ⟨.test [0] 0, [['r'], ['p']], ['a'], { typeId := 1987 }⟩
    (by decide) fun _ => rfl⟩

end E2etest
