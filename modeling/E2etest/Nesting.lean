import E2etest.Spans

/-!
# How two nodes overlap

`related_runGroup`: in a complete run, two nodes of the tree

* stand one inside the other (`Encloses`), and then the inner one does all it does between the setup
  and the drop of the outer one (`Nested`), or
* are done one before the other begins (`Apart`), or
* are tests of one group that may run concurrently (`Parallel`).

What holds at an intermediate point of a run is read off this at a prefix.
-/

namespace E2etest

open Async Text Prog

/-- All the second node does, it does inside the first one. -/
def Nested (p : Node) (m : NodeId) (defaultTimeout : Duration) (w : List OpCall) : Prop :=
  proj m w = [] ∨ ∃ a down, proj₂ p.id m w =
    spanWord p.id p.path .group p.fixture defaultTimeout (.ok (some a)) (proj m w) down

/-- One of the nodes is done before the other one begins. -/
def Apart (n m : NodeId) (w : List OpCall) : Prop :=
  proj₂ n m w = proj n w ++ proj m w ∨ proj₂ n m w = proj m w ++ proj n w

/-- The nodes are tests of one group, and their fixtures and the fixtures of the groups around them
allow them to overlap. -/
structure Parallel (nodes : List Node) (n m : Node) : Prop where
  left : n.id.isTest = true
  right : m.id.isTest = true
  pos : n.id.pos = m.id.pos
  fixtureLeft : n.fixture.testCanRunConcurrently = true
  fixtureRight : m.fixture.testCanRunConcurrently = true
  enclosing : ∀ p ∈ nodes, p.id.Encloses n.id → p.fixture.testCanRunConcurrently = true

/-- How two nodes overlap. -/
inductive Related (nodes : List Node) (ctx : RunContext) (n m : Node) (w : List OpCall) : Prop
  | outer (h : n.id.Encloses m.id) (hw : Nested n m.id ctx.defaultTimeout w)
  | inner (h : m.id.Encloses n.id) (hw : Nested m n.id ctx.defaultTimeout w)
  | apart (hnm : ¬ n.id.Encloses m.id) (hmn : ¬ m.id.Encloses n.id) (hw : Apart n.id m.id w)
  | parallel (h : Parallel nodes n m) (hc : ctx.concurrencyEnabled = true)

/-! ## Words the two nodes are not in -/

theorem proj_congr {n m : NodeId} {v w : List OpCall} (h : proj₂ n m v = proj₂ n m w) :
    proj n v = proj n w ∧ proj m v = proj m w := by
  constructor
  · rw [← proj_proj₂ n m v, h, proj_proj₂]
  · rw [← proj_proj₂ m n v, proj₂_comm, h, proj₂_comm, proj_proj₂]

theorem Apart.symm {n m : NodeId} {w : List OpCall} (h : Apart n m w) : Apart m n w := by
  unfold Apart
  rw [proj₂_comm]
  exact Or.symm h

theorem Apart.congr {n m : NodeId} {v w : List OpCall} (h : Apart n m v)
    (he : proj₂ n m w = proj₂ n m v) : Apart n m w := by
  obtain ⟨hn, hm⟩ := proj_congr he
  unfold Apart
  rw [he, hn, hm]
  exact h

theorem apart_append {n m : NodeId} {v w : List OpCall} (hv : ∀ c ∈ v, c.1.node ≠ m)
    (hw : ∀ c ∈ w, c.1.node ≠ n) : Apart n m (v ++ w) := by
  refine Or.inl ?_
  rw [proj₂_append, proj_append, proj_append, proj₂_eq_left hv, proj₂_eq_right hw,
    proj_eq_nil hv, proj_eq_nil hw, List.append_nil, List.nil_append]

theorem apart_of_left_nil {n m : NodeId} {w : List OpCall} (h : ∀ c ∈ w, c.1.node ≠ n) :
    Apart n m w := apart_append (v := []) (by simp) h

/-- Words done one after the other, each by one test. -/
theorem apart_flatten {pos : List Nat} {i j : Nat} (hij : i ≠ j) :
    ∀ {xs : List (Test × Nat)} {ls : List (List OpCall)}, (xs.map Prod.snd).Nodup →
      List.Forall₂ (fun x l => Owned (.test pos x.2) l) xs ls →
      Apart (.test pos i) (.test pos j) ls.flatten
  | [], _, _, h => by
    obtain rfl := List.forall₂_nil_left_iff.mp h
    exact Or.inl rfl
  | x :: xs, _, hnodup, h => by
    obtain ⟨l, ls, hl, hls, rfl⟩ := List.forall₂_cons_left_iff.mp h
    rw [List.map_cons, List.nodup_cons] at hnodup
    have hne : ∀ {k}, x.2 ≠ k → ∀ c ∈ l, c.1.node ≠ .test pos k := fun hk c hc he =>
      hk (NodeId.test.inj ((hl c hc).symm.trans he)).2
    have hrest : ∀ c ∈ ls.flatten, c.1.node ≠ .test pos x.2 := by
      intro c hc he
      obtain ⟨l', hl', hcl⟩ := List.mem_flatten.mp hc
      obtain ⟨y, hy, ho⟩ := forall₂_mem_right hls l' hl'
      refine hnodup.1 (List.mem_map.mpr ⟨y, hy, ?_⟩)
      exact (NodeId.test.inj ((ho c hcl).symm.trans he)).2
    rw [List.flatten_cons]
    by_cases hi : x.2 = i
    · subst hi
      exact apart_append (hne hij) hrest
    · by_cases hj : x.2 = j
      · subst hj
        exact (apart_append (hne hij.symm) hrest).symm
      · refine (apart_flatten hij hnodup.2 hls).congr ?_
        rw [proj₂_append, proj₂_eq_nil (hne hi) (hne hj), List.nil_append]

section Related

variable {nodes : List Node} {ctx : RunContext} {n m : Node} {v w : List OpCall}

theorem Parallel.symm (h : Parallel nodes n m) : Parallel nodes m n := by
  refine ⟨h.right, h.left, h.pos.symm, h.fixtureRight, h.fixtureLeft, fun p hp he => ?_⟩
  refine h.enclosing p hp ?_
  have hpos := h.pos
  have hleft := h.left
  have hright := h.right
  cases hn : n.id with
  | group q => simp [NodeId.isTest, hn] at hleft
  | test q i =>
    cases hm : m.id with
    | group q' => simp [NodeId.isTest, hm] at hright
    | test q' i' =>
      rw [hn, hm] at hpos
      obtain rfl : q = q' := hpos
      rw [hm] at he
      cases hp' : p.id with
      | group k =>
        rw [hp'] at he
        exact he
      | test k i' =>
        rw [hp'] at he
        exact he.elim

theorem Related.symm (h : Related nodes ctx n m w) : Related nodes ctx m n w := by
  cases h with
  | outer h hw => exact .inner h hw
  | inner h hw => exact .outer h hw
  | apart hnm hmn hw => exact .apart hmn hnm hw.symm
  | parallel h hc => exact .parallel h.symm hc

theorem Nested.congr {p : Node} {k : NodeId} {dt : Duration} (h : Nested p k dt v)
    (he : proj₂ p.id k w = proj₂ p.id k v) : Nested p k dt w := by
  unfold Nested
  rw [he, (proj_congr he).2]
  exact h

theorem Related.congr (h : Related nodes ctx n m v)
    (he : proj₂ n.id m.id w = proj₂ n.id m.id v) : Related nodes ctx n m w := by
  cases h with
  | outer h hw => exact .outer h (hw.congr he)
  | inner h hw => exact .inner h (hw.congr (by rw [proj₂_comm, he, proj₂_comm]))
  | apart hnm hmn hw => exact .apart hnm hmn (hw.congr he)
  | parallel h hc => exact .parallel h hc

/-- Nodes that do nothing. -/
theorem related_of_nil (hn : ∀ c ∈ w, c.1.node ≠ n.id) (hm : ∀ c ∈ w, c.1.node ≠ m.id) :
    Related nodes ctx n m w := by
  by_cases h₁ : n.id.Encloses m.id
  · exact .outer h₁ (Or.inl (proj_eq_nil hm))
  · by_cases h₂ : m.id.Encloses n.id
    · exact .inner h₂ (Or.inl (proj_eq_nil hn))
    · exact .apart h₁ h₂ (apart_of_left_nil hn)

end Related

/-! ## Two nodes of a run -/

section Inside

variable {pos : List Nat} {parentNames : List Str} {ctx : RunContext} {ts : List Test}
  {gs : List Group} {w : List OpCall} {n m : Node}

theorem proj₂_test_groups {v : List OpCall} (h : Completes (runGroups pos 0 parentNames ctx gs) v ())
    (i j : Nat) : proj₂ (.test pos i) (.test pos j) v = [] :=
  proj₂_eq_nil (not_test_groups h i) (not_test_groups h j)

/-- Two tests of a group. -/
theorem related_tests (h : Completes (groupInside pos parentNames ctx ts gs) w ()) {t u : Test}
    {i j : Nat} (ht : ts[i]? = some t) (hu : ts[j]? = some u) (hij : i ≠ j) :
    Related (Group.nodesOf pos 0 parentNames gs ++ Group.testNodes pos parentNames ts) ctx
      ⟨.test pos i, parentNames, t.name, t.fixture⟩
      ⟨.test pos j, parentNames, u.name, u.fixture⟩ w := by
  obtain ⟨t₁, t₂, t₃, ls₂, ls₃, rfl, h₁, h₂, hi, h₃, rfl⟩ := completes_groupInside h
  have hphase : ∀ {b} {x : Test} {k}, ts[k]? = some x →
      ctx.isConcurrencyEnabled x.canRunConcurrently ≠ b → (x, k) ∉ phase parentNames ctx b ts :=
    fun _ hb hx => hb (mem_phase.mp hx).2.2
  have hapart : Apart (.test pos i) (.test pos j) (t₂ ++ ls₃.flatten) →
      Related (Group.nodesOf pos 0 parentNames gs ++ Group.testNodes pos parentNames ts) ctx
        ⟨.test pos i, parentNames, t.name, t.fixture⟩
        ⟨.test pos j, parentNames, u.name, u.fixture⟩ (t₁ ++ (t₂ ++ ls₃.flatten)) := by
    refine fun ha => .apart (NodeId.not_encloses_test _ rfl _) (NodeId.not_encloses_test _ rfl _)
      (ha.congr ?_)
    rw [proj₂_append, proj₂_test_groups h₁, List.nil_append]
  cases hbt : ctx.isConcurrencyEnabled t.canRunConcurrently with
  | true =>
    cases hbu : ctx.isConcurrencyEnabled u.canRunConcurrently with
    | true =>
      simp only [RunContext.isConcurrencyEnabled, Bool.and_eq_true] at hbt hbu
      refine .parallel ⟨rfl, rfl, rfl, hbt.2, hbu.2, fun p hp he => ?_⟩ hbt.1
      rcases List.mem_append.mp hp with hp | hp
      · exact absurd he (Group.not_encloses_testNode hp i)
      · obtain ⟨_, _, -, rfl⟩ := Group.mem_testNodes.mp hp
        exact absurd he (NodeId.not_encloses_test _ rfl _)
    | false =>
      exact hapart (apart_append (not_in_phase h₂ hi hu (hphase hu (by simp [hbu])))
        (not_in_phase (n := 0) h₃ (.flatten ls₃) ht (hphase ht (by simp [hbt]))))
  | false =>
    cases hbu : ctx.isConcurrencyEnabled u.canRunConcurrently with
    | true =>
      exact hapart (apart_append (not_in_phase h₂ hi ht (hphase ht (by simp [hbt])))
        (not_in_phase (n := 0) h₃ (.flatten ls₃) hu (hphase hu (by simp [hbu])))).symm
    | false =>
      refine hapart ((apart_flatten hij (phase_nodup parentNames ctx false ts)
        (h₃.imp fun _ _ => runTest_owned)).congr ?_)
      rw [proj₂_append, proj₂_eq_nil (not_in_phase h₂ hi ht (hphase ht (by simp [hbt])))
        (not_in_phase h₂ hi hu (hphase hu (by simp [hbu]))), List.nil_append]

/-- A node below a subgroup and a test of the group. -/
theorem related_group_test (h : Completes (groupInside pos parentNames ctx ts gs) w ())
    (hn : n ∈ Group.nodesOf pos 0 parentNames gs) (hm : m ∈ Group.testNodes pos parentNames ts) :
    Related (Group.nodesOf pos 0 parentNames gs ++ Group.testNodes pos parentNames ts) ctx n m
      w := by
  obtain ⟨t₁, t₂, t₃, ls₂, ls₃, rfl, h₁, h₂, hi, h₃, rfl⟩ := completes_groupInside h
  obtain ⟨u, j, -, rfl⟩ := Group.mem_testNodes.mp hm
  refine .apart (Group.not_encloses_testNode hn j) (NodeId.not_encloses_test _ rfl _)
    (apart_append (not_test_groups h₁ j) fun c hc => ?_)
  rcases List.mem_append.mp hc with hc | hc
  · exact not_below_phase h₂ hi hn c hc
  · exact not_below_phase (n := 0) h₃ (.flatten ls₃) hn c hc

theorem Related.weaken {nodes nodes' : List Node} {ctx' : RunContext}
    (h : Related nodes ctx n m w) (htimeout : ctx.defaultTimeout = ctx'.defaultTimeout)
    (hpar : Parallel nodes n m → ctx.concurrencyEnabled = true →
      Parallel nodes' n m ∧ ctx'.concurrencyEnabled = true) : Related nodes' ctx' n m w := by
  cases h with
  | outer h hw => exact .outer h (htimeout ▸ hw)
  | inner h hw => exact .inner h (htimeout ▸ hw)
  | apart hnm hmn hw => exact .apart hnm hmn hw
  | parallel h hc => exact .parallel (hpar h hc).1 (hpar h hc).2

/-- More nodes, none of which encloses a test in question. -/
theorem Related.more {nodes nodes' : List Node} (h : Related nodes ctx n m w)
    (hmore : ∀ p ∈ nodes', p ∈ nodes ∨ ¬ p.id.Encloses n.id) : Related nodes' ctx n m w :=
  h.weaken rfl fun hp hc => ⟨{ hp with
    enclosing := fun p hp' he => (hmore p hp').elim (fun hin => hp.enclosing p hin he)
      fun hno => absurd he hno }, hc⟩

/-- Two nodes below a group. -/
theorem related_inside (h : Completes (groupInside pos parentNames ctx ts gs) w ())
    (hgs : ∀ {v}, Completes (runGroups pos 0 parentNames ctx gs) v () →
      ∀ n ∈ Group.nodesOf pos 0 parentNames gs, ∀ m ∈ Group.nodesOf pos 0 parentNames gs,
        n.id ≠ m.id → Related (Group.nodesOf pos 0 parentNames gs) ctx n m v)
    (hn : n ∈ Group.nodesOf pos 0 parentNames gs ++ Group.testNodes pos parentNames ts)
    (hm : m ∈ Group.nodesOf pos 0 parentNames gs ++ Group.testNodes pos parentNames ts)
    (hne : n.id ≠ m.id) :
    Related (Group.nodesOf pos 0 parentNames gs ++ Group.testNodes pos parentNames ts) ctx n m
      w := by
  rcases List.mem_append.mp hn with hn | hn
  · rcases List.mem_append.mp hm with hm | hm
    · obtain ⟨t₁, t₂, t₃, ls₂, ls₃, rfl, h₁, h₂, hi, h₃, rfl⟩ := completes_groupInside h
      refine ((hgs h₁ n hn m hm hne).congr ?_).more fun p hp => ?_
      · rw [proj₂_append, proj₂_append,
          proj₂_eq_nil (not_below_phase h₂ hi hn) (not_below_phase h₂ hi hm),
          proj₂_eq_nil (not_below_phase (n := 0) h₃ (.flatten ls₃) hn)
            (not_below_phase (n := 0) h₃ (.flatten ls₃) hm), List.append_nil, List.append_nil]
      · refine (List.mem_append.mp hp).imp_right fun hp => ?_
        obtain ⟨_, _, -, rfl⟩ := Group.mem_testNodes.mp hp
        exact NodeId.not_encloses_test _ rfl _
    · exact related_group_test h hn hm
  · rcases List.mem_append.mp hm with hm | hm
    · exact (related_group_test h hm hn).symm
    · obtain ⟨t, i, ht, rfl⟩ := Group.mem_testNodes.mp hn
      obtain ⟨u, j, hu, rfl⟩ := Group.mem_testNodes.mp hm
      exact related_tests h ht hu fun hij => hne (by rw [hij])

/-- A group and a node below it. -/
theorem nested_span {p : Node} {m : NodeId} {dt : Duration} {r : Except Unit (Option Arc)}
    {mid : List OpCall} {down : Except Unit Unit} {P : Arc → Prop} (hne : p.id ≠ m)
    (hmid : ∀ c ∈ mid, c.1.node ≠ p.id) (hr : Passed r mid P) :
    Nested p m dt (spanWord p.id p.path .group p.fixture dt r mid down) := by
  have hopen : ∀ c ∈ openWord p.id p.path .group p.fixture dt r, c.1.node ≠ m := fun c hc he =>
    hne ((owned_openWord _ _ _ _ _ _ c hc).symm.trans he)
  have hclose : ∀ c ∈ closeWord p.id p.path p.fixture dt r down, c.1.node ≠ m := fun c hc he =>
    hne ((owned_closeWord _ _ _ _ _ _ c hc).symm.trans he)
  have hproj : proj m (spanWord p.id p.path .group p.fixture dt r mid down) = proj m mid :=
    proj_span hne.symm
  obtain ⟨a, rfl, -⟩ | ⟨-, rfl⟩ := hr
  · refine Or.inr ⟨a, down, ?_⟩
    rw [hproj, spanWord, spanWord, proj₂_append, proj₂_append, proj₂_eq_left hopen,
      proj₂_eq_left hclose, proj₂_eq_right hmid, (owned_openWord _ _ _ _ _ _).proj_self,
      (owned_closeWord _ _ _ _ _ _).proj_self]
  · exact Or.inl hproj

/-- What stands outside a group does not see the group's own operations. -/
theorem proj₂_span {p : NodeId} {name : Str} {kind : Task} {f : Fixture} {dt : Duration}
    {r : Except Unit (Option Arc)} {mid : List OpCall} {down : Except Unit Unit} {k l : NodeId}
    (hk : k ≠ p) (hl : l ≠ p) :
    proj₂ k l (spanWord p name kind f dt r mid down) = proj₂ k l mid := by
  have hopen : ∀ k, k ≠ p → ∀ c ∈ openWord p name kind f dt r, c.1.node ≠ k := fun k hk c hc he =>
    hk (he.symm.trans (owned_openWord _ _ _ _ _ _ c hc))
  have hclose : ∀ k, k ≠ p → ∀ c ∈ closeWord p name f dt r down, c.1.node ≠ k := fun k hk c hc he =>
    hk (he.symm.trans (owned_closeWord _ _ _ _ _ _ c hc))
  rw [spanWord, proj₂_append, proj₂_append, proj₂_eq_nil (hopen k hk) (hopen l hl),
    proj₂_eq_nil (hclose k hk) (hclose l hl), List.append_nil, List.nil_append]

end Inside

mutual

/-- **How two nodes overlap.** -/
theorem related_runGroup (pos : List Nat) (parentNames : List Str) (ctx : RunContext) :
    ∀ (g : Group) {w : List OpCall}, Completes (runGroup pos parentNames ctx g) w () →
      ∀ n ∈ g.nodes pos parentNames, ∀ m ∈ g.nodes pos parentNames, n.id ≠ m.id →
        Related (g.nodes pos parentNames) ctx n m w
  | .mk name f ts gs, w, h => by
    obtain ⟨r, mid, down, rfl, hmid⟩ := completes_runGroup.mp h
    have hself : ∀ m ∈ Group.nodesOf pos 0 (parentNames ++ [name]) gs ++
        Group.testNodes pos (parentNames ++ [name]) ts,
        Related ((Group.mk name f ts gs).nodes pos parentNames) ctx
          ⟨.group pos, parentNames, name, f⟩ m (spanWord (.group pos)
            (join (parentNames ++ [name])) .group f ctx.defaultTimeout r mid down) := by
      intro m hm
      refine .outer (Group.encloses_below hm) (nested_span (Group.ne_group_of_below hm).symm ?_ hmid)
      obtain ⟨a, -, hmid⟩ | ⟨-, rfl⟩ := hmid
      · exact not_group_inside hmid
      · simp
    intro n hn m hm hne
    rcases List.mem_cons.mp hn with rfl | hn
    · rcases List.mem_cons.mp hm with rfl | hm
      · exact absurd rfl hne
      · exact hself m hm
    · rcases List.mem_cons.mp hm with rfl | hm
      · exact (hself n hn).symm
      · have hw : proj₂ n.id m.id (spanWord (.group pos) (join (parentNames ++ [name])) .group f
            ctx.defaultTimeout r mid down) = proj₂ n.id m.id mid :=
          proj₂_span (Group.ne_group_of_below hn) (Group.ne_group_of_below hm)
        refine Related.congr ?_ hw
        obtain ⟨a, -, hmid⟩ | ⟨-, rfl⟩ := hmid
        · refine (related_inside hmid (related_runGroups pos 0 _ _ gs) hn hm hne).weaken rfl ?_
          intro hp hc
          obtain ⟨hctx, hf⟩ := Bool.and_eq_true_iff.mp hc
          exact ⟨{ hp with
            enclosing := List.forall_mem_cons.mpr ⟨fun _ => hf, hp.enclosing⟩ }, hctx⟩
        · exact related_of_nil (by simp) (by simp)

theorem related_runGroups (pos : List Nat) (j : Nat) (parentNames : List Str) (ctx : RunContext) :
    ∀ (gs : List Group) {w : List OpCall}, Completes (runGroups pos j parentNames ctx gs) w () →
      ∀ n ∈ Group.nodesOf pos j parentNames gs, ∀ m ∈ Group.nodesOf pos j parentNames gs,
        n.id ≠ m.id → Related (Group.nodesOf pos j parentNames gs) ctx n m w
  | [], w, h => by simp [Group.nodesOf]
  | g :: gs, w, h => by
    obtain ⟨t₁, t₂, rfl, h₁, h₂⟩ := completes_runGroups_cons.mp h
    have hhead : ∀ m ∈ Group.nodesOf pos (j + 1) parentNames gs, ∀ c ∈ t₁, c.1.node ≠ m.id :=
      fun m hm => not_in_head h₁ hm
    have hrest : ∀ n ∈ g.nodes (pos ++ [j]) parentNames, ∀ c ∈ t₂, c.1.node ≠ n.id :=
      fun n hn => not_in_rest h₂ hn
    have hcross : ∀ n ∈ g.nodes (pos ++ [j]) parentNames,
        ∀ m ∈ Group.nodesOf pos (j + 1) parentNames gs,
          Related (Group.nodesOf pos j parentNames (g :: gs)) ctx n m (t₁ ++ t₂) := by
      intro n hn m hm
      obtain ⟨hnm, hmn⟩ := Group.not_encloses_subgroups hn hm
      exact .apart hnm hmn (apart_append (hhead m hm) (hrest n hn))
    intro n hn m hm hne
    rcases List.mem_append.mp hn with hn | hn
    · rcases List.mem_append.mp hm with hm | hm
      · have hw : proj₂ n.id m.id (t₁ ++ t₂) = proj₂ n.id m.id t₁ := by
          rw [proj₂_append, proj₂_eq_nil (hrest n hn) (hrest m hm), List.append_nil]
        refine Related.congr ?_ hw
        split at h₁
        · refine (related_runGroup (pos ++ [j]) _ _ g h₁ n hn m hm hne).more fun p hp => ?_
          exact (List.mem_append.mp hp).imp_right fun hp => (Group.not_encloses_subgroups hn hp).2
        · rw [h₁]
          exact related_of_nil (by simp) (by simp)
      · exact hcross n hn m hm
    · rcases List.mem_append.mp hm with hm | hm
      · exact (hcross m hm n hn).symm
      · have hw : proj₂ n.id m.id (t₁ ++ t₂) = proj₂ n.id m.id t₂ := by
          rw [proj₂_append, proj₂_eq_nil (hhead n hn) (hhead m hm), List.nil_append]
        refine ((related_runGroups pos (j + 1) _ _ gs h₂ n hn m hm hne).congr hw).more ?_
        intro p hp
        exact (List.mem_append.mp hp).symm.imp_right fun hp => (Group.not_encloses_subgroups hp hn).1

end

end E2etest
