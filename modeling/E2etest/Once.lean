import E2etest.Drive
import E2etest.FilterLaws

/-!
# Which tests a run runs

`runGroup_runs_iff`: the recursive selection of `run_group`, as a statement about paths in the tree: a
node is run when the filter lets it and every group on the way through, and every setup on the way
passed. `run_test_once`: on a tree whose names hold no `:` the tests among them are those that the
loop of `run` includes, and each of them is run once, as is every group around one.
-/

namespace E2etest

open Async Text Prog

theorem mem_proj {n : NodeId} {w : List OpCall} {c : OpCall} :
    c ∈ proj n w ↔ c ∈ w ∧ c.1.node = n := by
  simp [proj]

/-- The task of the node's setup returned `r`. -/
def SetupReturned (m : Node) (r : Except Unit (Option Arc)) (w : List OpCall) : Prop :=
  ⟨.join m.id (.setup m.fixture.typeId), r⟩ ∈ w

/-- The setup of the node passed: it returned a fixture. -/
def SetupPassed (m : Node) (w : List OpCall) : Prop := ∃ a, SetupReturned m (.ok (some a)) w

theorem setupPassed_proj {m : Node} {w : List OpCall} :
    SetupPassed m (proj m.id w) ↔ SetupPassed m w := by
  simp [SetupPassed, SetupReturned, mem_proj, Op.node]

theorem setupPassed_congr {m : Node} {v w : List OpCall} (h : proj m.id v = proj m.id w) :
    SetupPassed m v ↔ SetupPassed m w := by
  rw [← setupPassed_proj, h, setupPassed_proj]

/-- The setup in a span returns its answer. -/
theorem setupReturned_span {m : Node} {dt : Duration} {r r' : Except Unit (Option Arc)}
    {mid : List OpCall} {down : Except Unit Unit} {kind : Task}
    (hmid : ∀ c ∈ mid, c.1.node ≠ m.id) :
    SetupReturned m r' (spanWord m.id m.path kind m.fixture dt r mid down) ↔ r' = r := by
  have hno : ∀ r', ⟨.join m.id (.setup m.fixture.typeId), r'⟩ ∉ mid := fun r' h => hmid _ h rfl
  rcases r with e | _ | a <;> rcases down with e' | u <;>
    simp [SetupReturned, spanWord, openWord, setupWord, singleWord, closeWord, teardownWord, hno]

theorem setupPassed_span {m : Node} {dt : Duration} {r : Except Unit (Option Arc)}
    {mid : List OpCall} {down : Except Unit Unit} {kind : Task}
    (hmid : ∀ c ∈ mid, c.1.node ≠ m.id) :
    SetupPassed m (spanWord m.id m.path kind m.fixture dt r mid down) ↔
      ∃ a, r = .ok (some a) :=
  exists_congr fun _ => (setupReturned_span hmid).trans eq_comm

theorem spanWord_ne_nil {n : NodeId} {name : Str} {kind : Task} {f : Fixture} {dt : Duration}
    {r : Except Unit (Option Arc)} {mid : List OpCall} {down : Except Unit Unit} :
    spanWord n name kind f dt r mid down ≠ [] := by
  simp [spanWord, openWord]

theorem runTest_ne_nil {n : NodeId} {groupName : Str} {ctx : RunContext} {t : Test}
    {w : List OpCall} (h : Completes (runTest n groupName ctx t) w ()) : w ≠ [] := by
  obtain ⟨r, mid, down, rfl, -⟩ := completes_runTest.mp h
  exact spanWord_ne_nil

section Inside

variable {pos : List Nat} {parentNames : List Str} {ctx : RunContext} {ts : List Test}
  {gs : List Group} {w : List OpCall} {n : Node}

/-- The filter lets the node through. -/
def Filter.considers (filter : Filter) (n : Node) : Bool :=
  if n.id.isTest then filter.considerTest n.parents n.name
  else filter.considerGroup n.parents n.name

theorem Filter.considers_test (filter : Filter) {n : Node} (h : n.id.isTest = true) :
    filter.considers n = filter.considerTest n.parents n.name := if_pos h

theorem Filter.considers_group (filter : Filter) {n : Node} (h : n.id.isTest = false) :
    filter.considers n = filter.considerGroup n.parents n.name := if_neg (by simp [h])

/-- Every group on the way to `n` is let through, and its setup passed. -/
def OnWay (filter : Filter) (nodes : List Node) (w : List OpCall) (n : Node) : Prop :=
  ∀ m ∈ nodes, m.id.Encloses n.id → filter.considers m = true ∧ SetupPassed m w

theorem OnWay.congr {filter : Filter} {nodes nodes' : List Node} {v w : List OpCall}
    (hproj : ∀ m ∈ nodes, proj m.id v = proj m.id w)
    (hnodes : ∀ m, m.id.Encloses n.id → (m ∈ nodes ↔ m ∈ nodes')) :
    OnWay filter nodes v n ↔ OnWay filter nodes' w n := by
  refine forall_congr' fun m => ?_
  constructor
  · intro h hm he
    have hm' := (hnodes m he).mpr hm
    rw [← setupPassed_congr (hproj m hm')]
    exact h hm' he
  · intro h hm he
    rw [setupPassed_congr (hproj m hm)]
    exact h ((hnodes m he).mp hm) he

/-- The nodes below a group, given the same of the nodes below its subgroups. -/
theorem inside_iff (h : Completes (groupInside pos parentNames ctx ts gs) w ())
    (hgs : ∀ {v}, Completes (runGroups pos 0 parentNames ctx gs) v () →
      ∀ n ∈ Group.nodesOf pos 0 parentNames gs,
        (proj n.id v ≠ [] ↔ ctx.filter.considers n = true ∧
          OnWay ctx.filter (Group.nodesOf pos 0 parentNames gs) v n))
    (hn : n ∈ Group.nodesOf pos 0 parentNames gs ++ Group.testNodes pos parentNames ts) :
    proj n.id w ≠ [] ↔ ctx.filter.considers n = true ∧
      OnWay ctx.filter (Group.nodesOf pos 0 parentNames gs ++ Group.testNodes pos parentNames ts)
        w n := by
  obtain ⟨v, hv, hproj⟩ := proj_inside_groups h
  have hgroups : ∀ m : Node, m.id.Encloses n.id → (m ∈ Group.nodesOf pos 0 parentNames gs ↔
      m ∈ Group.nodesOf pos 0 parentNames gs ++ Group.testNodes pos parentNames ts) := by
    intro m he
    rw [List.mem_append, or_iff_left]
    intro hm
    obtain ⟨t, i, -, rfl⟩ := Group.mem_testNodes.mp hm
    exact NodeId.not_encloses_test _ rfl _ he
  rcases List.mem_append.mp hn with hn | hn
  · rw [hproj n hn, hgs hv n hn]
    refine and_congr_right fun _ => OnWay.congr (fun m hm => (hproj m hm).symm) hgroups
  · obtain ⟨t, i, hti, rfl⟩ := Group.mem_testNodes.mp hn
    have hway : OnWay ctx.filter (Group.nodesOf pos 0 parentNames gs ++
        Group.testNodes pos parentNames ts) w ⟨.test pos i, parentNames, t.name, t.fixture⟩ :=
      fun m hm he => absurd he (Group.not_encloses_testNode ((hgroups m he).mpr hm) i)
    have hrun := proj_inside_test h hti
    split at hrun
    · rename_i hc
      exact iff_of_true (runTest_ne_nil hrun) ⟨hc, hway⟩
    · rename_i hc
      exact iff_of_false (not_not_intro hrun) fun h => hc h.1

end Inside

theorem runGroup_ne_nil {pos : List Nat} {parentNames : List Str} {ctx : RunContext} {g : Group}
    {w : List OpCall} (h : Completes (runGroup pos parentNames ctx g) w ()) :
    proj (.group pos) w ≠ [] := by
  cases g
  obtain ⟨r, mid, down, rfl, -⟩ := completes_runGroup.mp h
  refine List.ne_nil_of_mem (mem_proj.mpr ⟨?_, ?_⟩ : ⟨.enter (.group pos), ()⟩ ∈ _)
  · simp [spanWord, openWord]
  · rfl

mutual

/-- **What a group runs**: the nodes that the filter lets through, behind groups that it lets through
and whose setups passed. -/
theorem runGroup_runs_iff (pos : List Nat) (parentNames : List Str) (ctx : RunContext) :
    ∀ (g : Group) {w : List OpCall}, Completes (runGroup pos parentNames ctx g) w () →
      ∀ n ∈ g.nodes pos parentNames,
        (proj n.id w ≠ [] ↔ (n.id ≠ .group pos → ctx.filter.considers n = true) ∧
          ∀ m ∈ g.nodes pos parentNames, m.id.Encloses n.id →
            (m.id ≠ .group pos → ctx.filter.considers m = true) ∧ SetupPassed m w)
  | .mk name f ts gs, w, h => by
    have hroot := runGroup_ne_nil h
    obtain ⟨r, mid, down, rfl, hmid⟩ := completes_runGroup.mp h
    intro n hn
    rcases List.mem_cons.mp hn with rfl | hn
    · refine iff_of_true hroot ⟨fun hne => absurd rfl hne, fun m hm he => ?_⟩
      obtain rfl | ⟨-, hm⟩ := Group.eq_or_encloses hm
      · exact absurd he (NodeId.not_encloses_symm he)
      · exact absurd hm (NodeId.not_encloses_symm he)
    have hself : SetupPassed ⟨.group pos, parentNames, name, f⟩
        (spanWord (.group pos) (join (parentNames ++ [name])) .group f ctx.defaultTimeout r mid
          down) ↔ ∃ a, r = .ok (some a) := by
      refine setupPassed_span (m := ⟨.group pos, parentNames, name, f⟩) ?_
      obtain ⟨a, -, hmid⟩ | ⟨-, rfl⟩ := hmid
      · exact not_group_inside hmid
      · simp
    have hproj : ∀ m ∈ Group.nodesOf pos 0 (parentNames ++ [name]) gs ++
        Group.testNodes pos (parentNames ++ [name]) ts, proj m.id (spanWord (.group pos)
          (join (parentNames ++ [name])) .group f ctx.defaultTimeout r mid down) = proj m.id mid :=
      fun m hm => proj_span (Group.ne_group_of_below hm)
    rw [hproj n hn]
    obtain ⟨a, ha, hmid⟩ | ⟨hne, rfl⟩ := hmid
    · rw [inside_iff hmid (runGroups_runs_iff pos 0 _ _ gs) hn]
      constructor
      · rintro ⟨hc, h⟩
        refine ⟨fun _ => hc, List.forall_mem_cons.mpr
          ⟨fun _ => ⟨fun hne => absurd rfl hne, hself.mpr ⟨a, ha⟩⟩, ?_⟩⟩
        intro m hm he
        rw [setupPassed_congr (hproj m hm)]
        exact ⟨fun _ => (h m hm he).1, (h m hm he).2⟩
      · rintro ⟨hc, h⟩
        refine ⟨hc (Group.ne_group_of_below hn), fun m hm he => ?_⟩
        obtain ⟨hc, hp⟩ := h m (List.mem_cons_of_mem _ hm) he
        rw [setupPassed_congr (hproj m hm)] at hp
        exact ⟨hc (Group.ne_group_of_below hm), hp⟩
    · refine iff_of_false (not_not_intro rfl) fun h => ?_
      obtain ⟨a, ha⟩ := hself.mp (h.2 _ List.mem_cons_self (Group.encloses_below hn)).2
      exact hne a ha

theorem runGroups_runs_iff (pos : List Nat) (j : Nat) (parentNames : List Str)
    (ctx : RunContext) :
    ∀ (gs : List Group) {w : List OpCall}, Completes (runGroups pos j parentNames ctx gs) w () →
      ∀ n ∈ Group.nodesOf pos j parentNames gs,
        (proj n.id w ≠ [] ↔ ctx.filter.considers n = true ∧
          OnWay ctx.filter (Group.nodesOf pos j parentNames gs) w n)
  | [], w, h => by simp [Group.nodesOf]
  | g :: gs, w, h => by
    obtain ⟨t₁, t₂, rfl, h₁, h₂⟩ := completes_runGroups_cons.mp h
    intro n hn
    rw [proj_append]
    rcases List.mem_append.mp hn with hn | hn
    · have hway : OnWay ctx.filter (Group.nodesOf pos j parentNames (g :: gs)) (t₁ ++ t₂) n ↔
          OnWay ctx.filter (g.nodes (pos ++ [j]) parentNames) t₁ n := by
        refine (OnWay.congr (fun m hm => ?_) fun m he => ?_).symm
        · rw [proj_append, proj_eq_nil (not_in_rest h₂ hm), List.append_nil]
        · unfold Group.nodesOf
          rw [List.mem_append, or_iff_left]
          exact fun hm => (Group.not_encloses_subgroups hn hm).2 he
      rw [proj_eq_nil (not_in_rest h₂ hn), List.append_nil, hway]
      split at h₁
      · rename_i hc
        have hroot : ∀ m ∈ g.nodes (pos ++ [j]) parentNames,
            (m.id ≠ .group (pos ++ [j]) → ctx.filter.considers m = true) ↔
              ctx.filter.considers m = true := by
          intro m hm
          obtain rfl | ⟨hne, -⟩ := Group.eq_or_encloses hm
          · exact iff_of_true (fun hne => absurd rfl hne) hc
          · exact ⟨fun h => h hne, fun h _ => h⟩
        rw [runGroup_runs_iff (pos ++ [j]) _ _ g h₁ n hn, hroot n hn]
        exact and_congr_right fun _ => forall₂_congr fun m hm => forall_congr' fun _ =>
          and_congr_left fun _ => hroot m hm
      · rename_i hc
        rw [h₁]
        refine iff_of_false (not_not_intro rfl) fun h => hc ?_
        obtain rfl | ⟨-, he⟩ := Group.eq_or_encloses hn
        · exact h.1
        · exact (h.2 _ (Group.rootNode_mem _ _ g) he).1
    · rw [proj_eq_nil (not_in_head h₁ hn), List.nil_append,
        runGroups_runs_iff pos (j + 1) _ _ gs h₂ n hn]
      refine and_congr_right fun _ => OnWay.congr (fun m hm => ?_) fun m he => ?_
      · rw [proj_append, proj_eq_nil (not_in_head h₁ hm), List.nil_append]
      · rw [Group.nodesOf, List.mem_append, or_iff_right]
        exact fun hm => (Group.not_encloses_subgroups hm hn).1 he

end

theorem ne_group_of_isTest {n : NodeId} {pos : List Nat} (h : n.isTest = true) : n ≠ .group pos := by
  rintro rfl
  cases h

/-- A node that does something has been let through. -/
theorem considers_of_proj {pos : List Nat} {parentNames : List Str} {ctx : RunContext} {g : Group}
    {w : List OpCall} (h : Completes (runGroup pos parentNames ctx g) w ()) {n : Node}
    (hn : n ∈ g.nodes pos parentNames) (hw : proj n.id w ≠ []) (hne : n.id ≠ .group pos) :
    ctx.filter.considers n = true :=
  ((runGroup_runs_iff pos parentNames ctx g h n hn).mp hw).1 hne

/-! ## Every included test is run once -/

theorem countP_proj (n : NodeId) {op : Op} (hop : op.node = n) (w : List OpCall) :
    w.countP (fun c => c.1 = op) = (proj n w).countP fun c => c.1 = op := by
  unfold proj
  rw [List.countP_filter]
  refine List.countP_congr fun c _ => ?_
  simp only [Bool.and_eq_true, decide_eq_true_eq, iff_self_and]
  intro h
  rw [h, hop]

theorem IsSpan.countP_enter {m : Node} {dt : Duration} {w : List OpCall} (h : IsSpan m dt w) :
    w.countP (fun c => c.1 = .enter m.id) = 1 := by
  obtain ⟨r, mid, down, rfl, hmid⟩ := h
  have hm : mid.countP (fun c => c.1 = .enter m.id) = 0 := by
    obtain ⟨a, -, hmid⟩ | ⟨-, rfl⟩ := hmid
    · split at hmid
      · obtain ⟨timeout, body, rfl⟩ := hmid
        rcases body with e | u <;> simp [testWord, singleWord]
      · simp [hmid]
    · rfl
  have ho : (openWord m.id m.path m.kind m.fixture dt r).countP (fun c => c.1 = .enter m.id) = 1 := by
    rcases r with e | _ | a <;> simp [openWord, setupWord, singleWord]
  have hc : (closeWord m.id m.path m.fixture dt r down).countP (fun c => c.1 = .enter m.id) = 0 := by
    rcases r with e | _ | a <;> rcases down with e | u <;>
      simp [closeWord, teardownWord, singleWord]
  unfold spanWord
  rw [List.countP_append, List.countP_append, ho, hm, hc]

theorem IsSpan.setupReturned {m : Node} {dt : Duration} {w : List OpCall} (h : IsSpan m dt w) :
    ∃ r, SetupReturned m r w := by
  obtain ⟨r, mid, down, rfl, -⟩ := h
  refine ⟨r, ?_⟩
  rcases r with e | _ | a <;> simp [SetupReturned, spanWord, openWord, setupWord, singleWord]

theorem IsSpan.countP_join {m : Node} {dt : Duration} {w : List OpCall} (h : IsSpan m dt w) :
    w.countP (fun c => c.1 = .join m.id (.setup m.fixture.typeId)) = 1 := by
  obtain ⟨r, mid, down, rfl, hmid⟩ := h
  have hm : mid.countP (fun c => c.1 = .join m.id (.setup m.fixture.typeId)) = 0 := by
    obtain ⟨a, -, hmid⟩ | ⟨-, rfl⟩ := hmid
    · split at hmid
      · obtain ⟨timeout, body, rfl⟩ := hmid
        rcases body with e | u <;> simp [testWord, singleWord]
      · simp [hmid]
    · rfl
  have ho : (openWord m.id m.path m.kind m.fixture dt r).countP
      (fun c => c.1 = .join m.id (.setup m.fixture.typeId)) = 1 := by
    rcases r with e | _ | a <;> simp [openWord, setupWord, singleWord]
  have hc : (closeWord m.id m.path m.fixture dt r down).countP
      (fun c => c.1 = .join m.id (.setup m.fixture.typeId)) = 0 := by
    rcases r with e | _ | a <;> rcases down with e | u <;>
      simp [closeWord, teardownWord, singleWord]
  unfold spanWord
  rw [List.countP_append, List.countP_append, ho, hm, hc]

section Run

variable {G : FixtureGraph} {config : Config} {g : Group} {x : Sys} {t : List Label} {s : State}

/-- Tests with one path, on a tree whose names hold no `:`, have the same names on the way. -/
theorem names_eq_of_path (hg : g.ColonFree) {n m : Node} (hn : n ∈ g.nodes [] [])
    (hm : m ∈ g.nodes [] []) (he : n.path = m.path) : n.names = m.names :=
  join_injective (by simp [Node.names]) (by simp [Node.names]) (hg n hn) (hg m hm) he

theorem path_mem_included (hg : g.ColonFree) (hx : run config g = some x) {n : Node}
    (hn : n ∈ g.leaves) : n.path ∈ x.state.statistics.included ↔
      (Filter.new config.filters g).considerTest n.parents n.name = true := by
  rw [mem_included hg hx]
  constructor
  · rintro ⟨m, hm, hc, he⟩
    have hnames := names_eq_of_path hg (Group.mem_leaves.mp hn).1 (Group.mem_leaves.mp hm).1 he
    obtain ⟨hp, hname⟩ := List.append_inj' hnames rfl
    rwa [hp, List.singleton_inj.mp hname]
  · exact fun hc => ⟨n, hn, hc, rfl⟩

/-- The setups of the groups around the node passed. -/
def Behind (g : Group) (n : Node) (w : List OpCall) : Prop :=
  ∀ m ∈ g.nodes [] [], m.id.Encloses n.id → SetupPassed m w

/-- The node is an included test, or a group around one. -/
def Wanted (g : Group) (included : Finset Str) (n : Node) : Prop :=
  ∃ m ∈ g.leaves, m.path ∈ included ∧ (m = n ∨ n.id.Encloses m.id)

/-- **An included test is let through at every level**: the selection over paths agrees with the one
on the way down. -/
theorem considers_of_wanted (hg : g.ColonFree) (hx : run config g = some x) {n : Node}
    (hn : n ∈ g.nodes [] []) (hw : Wanted g x.state.statistics.included n)
    (hroot : n.id ≠ .group []) : (Filter.new config.filters g).considers n = true := by
  obtain ⟨m, hm, hinc, hbelow⟩ := hw
  have hc := (path_mem_included hg hx hm).mp hinc
  obtain ⟨hmem, ht⟩ := Group.mem_leaves.mp hm
  rcases hbelow with rfl | he
  · rwa [Filter.considers_test _ ht]
  · rw [Filter.considers_group _ he.isTest_left]
    exact considerGroup_of_considerTest hg hm hn (Group.parents_ne_nil hn hroot)
      (Group.encloses_names [] [] g n hn m hmem he) hc

theorem Wanted.outer {included : Finset Str} {n m : Node} (h : Wanted g included n)
    (he : m.id.Encloses n.id) : Wanted g included m := by
  obtain ⟨k, hk, hinc, rfl | hbelow⟩ := h
  · exact ⟨k, hk, hinc, Or.inr he⟩
  · exact ⟨k, hk, hinc, Or.inr (he.trans hbelow)⟩

/-- **No included test is lost**: what stands behind groups whose setups passed is run. -/
theorem proj_ne_nil_of_wanted (hg : g.ColonFree) (hx : run config g = some x)
    (h : Sys.Completes G x t s) {n : Node} (hn : n ∈ g.nodes [] [])
    (hw : Wanted g x.state.statistics.included n) (hb : Behind g n (calls t)) :
    proj n.id (calls t) ≠ [] := by
  obtain ⟨he, -⟩ := Sys.run_split h
  obtain ⟨hinc, -⟩ | ⟨-, hp⟩ := (run_spec hx).2.2.2
  · obtain ⟨m, -, hm, -⟩ := hw
    rw [hinc] at hm
    exact absurd hm (Finset.notMem_empty _)
  · rw [hp] at he
    exact (runGroup_runs_iff [] [] _ g he n hn).mpr ⟨considers_of_wanted hg hx hn hw,
      fun m hm henc => ⟨considers_of_wanted hg hx hm (hw.outer henc), hb m hm henc⟩⟩

/-- A test is run when it is included and the setups of the groups around it passed. -/
theorem proj_ne_nil_iff (hg : g.ColonFree) (hx : run config g = some x)
    (h : Sys.Completes G x t s) {n : Node} (hn : n ∈ g.leaves) :
    proj n.id (calls t) ≠ [] ↔ n.path ∈ x.state.statistics.included ∧ Behind g n (calls t) := by
  obtain ⟨hmem, ht⟩ := Group.mem_leaves.mp hn
  constructor
  · intro hne
    obtain ⟨he, -⟩ := Sys.run_split h
    obtain ⟨-, hp⟩ | ⟨-, hp⟩ := (run_spec hx).2.2.2 <;> rw [hp] at he
    · rw [(exec_pure he).1] at hne
      exact absurd rfl hne
    · obtain ⟨hc, hway⟩ := (runGroup_runs_iff [] [] _ g he n hmem).mp hne
      refine ⟨(path_mem_included hg hx hn).mpr ?_, fun m hm henc => (hway m hm henc).2⟩
      rw [← Filter.considers_test _ ht]
      exact hc (ne_group_of_isTest ht)
  · rintro ⟨hinc, hb⟩
    exact proj_ne_nil_of_wanted hg hx h hmem ⟨n, hn, hinc, Or.inl rfl⟩ hb

/-- The node is entered once, and its setup returns once. -/
def Once (n : Node) (w : List OpCall) : Prop :=
  w.countP (fun c => c.1 = .enter n.id) = 1 ∧
    w.countP (fun c => c.1 = .join n.id (.setup n.fixture.typeId)) = 1

theorem RunWord.once {w : List OpCall} (hw : RunWord config g w) {n : Node}
    (hn : n ∈ g.nodes [] []) (hne : E2etest.proj n.id w ≠ []) : Once n w := by
  have hspan := (hw.proj hn).resolve_left hne
  exact ⟨(countP_proj n.id rfl w).trans hspan.countP_enter,
    (countP_proj n.id rfl w).trans hspan.countP_join⟩

/-- What a complete run does, in the word `w`, given the filter and the paths that are included. -/
structure RunOnce (g : Group) (filter : Filter) (included : Finset Str) (w : List OpCall) :
    Prop where
  /-- The selection over paths agrees with the one on the way down. -/
  agree : ∀ n ∈ g.leaves, n.path ∈ included ↔ filter.considers n = true ∧
    ∀ m ∈ g.nodes [] [], m.id.Encloses n.id → m.id ≠ .group [] → filter.considers m = true
  /-- A group around an included test is entered once, behind groups whose setups passed. -/
  groups : ∀ n ∈ g.nodes [] [], (∃ m ∈ g.leaves, m.path ∈ included ∧ n.id.Encloses m.id) →
    Behind g n w → Once n w
  /-- An included test is run once, behind groups whose setups passed. -/
  tests : ∀ n ∈ g.leaves, n.path ∈ included → Behind g n w → Once n w
  /-- No other test is run. -/
  others : ∀ c ∈ w, ∀ id : NodeId, c.1 = .enter id → id.isTest = true →
    ∃ n ∈ g.leaves, n.id = id ∧ n.path ∈ included ∧ Behind g n w

/-- **Every included test behind groups whose setups passed is run once**, and no other test is
run: the groups around it are all let through, and entered once. -/
theorem run_test_once (hg : g.ColonFree) (hx : run config g = some x)
    (h : Sys.Completes G x t s) :
    RunOnce g (.new config.filters g) s.statistics.included (calls t) := by
  have hw := completes_runWord hx h
  rw [(run_statistics hx h).1]
  refine ⟨fun n hn => ?_, fun n hn ⟨m, hm, hinc, he⟩ hb => ?_, fun n hn hinc hb => ?_,
    fun c hc id hid ht => ?_⟩
  · obtain ⟨hmem, ht⟩ := Group.mem_leaves.mp hn
    rw [Filter.considers_test _ ht, path_mem_included hg hx hn, iff_self_and]
    intro hc m hm he hroot
    have hinc := (path_mem_included hg hx hn).mpr hc
    exact considers_of_wanted hg hx hm ⟨n, hn, hinc, Or.inr he⟩ hroot
  · exact hw.once hn (proj_ne_nil_of_wanted hg hx h hn ⟨m, hm, hinc, Or.inr he⟩ hb)
  · have hmem := (Group.mem_leaves.mp hn).1
    exact hw.once hmem (proj_ne_nil_of_wanted hg hx h hmem ⟨n, hn, hinc, Or.inl rfl⟩ hb)
  · obtain ⟨n, hn, hid'⟩ := hw.nodes c hc
    have hnode : c.1.node = id := by rw [hid]; rfl
    rw [hnode] at hid'
    have hleaf := Group.mem_leaves.mpr ⟨hn, by rw [hid']; exact ht⟩
    have hproj : proj n.id (calls t) ≠ [] :=
      List.ne_nil_of_mem (mem_proj.mpr ⟨hc, hnode.trans hid'.symm⟩)
    exact ⟨n, hleaf, hid', (proj_ne_nil_iff hg hx h hleaf).mp hproj⟩

end Run

/-- A run with a filter, in which the setup of the test is skipped. -/
theorem run_test_once_twoTests : ∃ x t s, run { filters := [['b']] } twoTests = some x ∧
    Sys.Completes noDependencies x t s ∧
      RunOnce twoTests (.new [['b']] twoTests) s.statistics.included (calls t) := by
  obtain ⟨x, hx, h⟩ := exists_completes_of_runsToEnd noDependencies
    { script := fun n => if n.isTest then .skip else .done [] } { filters := [['b']] } twoTests 100
    (by decide +kernel)
  exact ⟨x, _, _, hx, h, run_test_once (by decide) hx h⟩

end E2etest
