import E2etest.Services.Restart

/-!
# All nodes that are run again at once (`e2etest-scylla-cluster`)

`up` pairs the configurations with the entries by position, where `up_node` finds the entry by its
address.

`up_agrees_iff`: when `Up` does what `UpNode` does for each configuration. It needs them in the order
of the entries.
-/

namespace E2etest

open Async Os

namespace scylla_cluster

/-! ## All nodes at once -/

/-- What the entries hold, with what their children were started with. -/
def views (w : Machine RunNode) (state : State) :
    List (Ipv4Addr × Option RunNode × Option TempDir) :=
  state.nodes.map fun node => (node.dbIp, node.child.bind (w.started[·]?), node.workdir)

/-- `Up` starts the processes that `UpNode` starts for each configuration, and leaves the same
entries; and each process is started in the directory of the node with its address. -/
structure UpAgrees (nodeConfigs : List ScyllaNodeConfig) (state : State) (w : Machine RunNode) :
    Prop where
  started : (process (.up nodeConfigs) state w).2.started.Perm
    (serve process (nodeConfigs.map .upNode) state w).2.started
  nodes : (process (.up nodeConfigs) state w).1.map (views (process (.up nodeConfigs) state w).2) =
    (serve process (nodeConfigs.map .upNode) state w).1.map
      (views (serve process (nodeConfigs.map .upNode) state w).2)
  placed : ∀ run ∈ (process (.up nodeConfigs) state w).2.started.drop w.started.length,
    run.place ∈ state.places

/-- The configurations are in the order of the entries, as far as their processes are started. -/
def InOrder (nodeConfigs : List ScyllaNodeConfig) (state : State) (w : Machine RunNode) : Prop :=
  ∀ i < state.nodes.length, w.Succeeds (i + 1) →
    (nodeConfigs.map ScyllaNodeConfig.dbIp)[i]? = (state.nodes.map NodeState.dbIp)[i]?

section Up

variable {state state' : State} {w w' : Machine RunNode} {nodeConfigs : List ScyllaNodeConfig}
  {seedIp : Ipv4Addr}

variable (nodeConfigs seedIp) in
/-- What the loop of `up` starts, from number `i` on. -/
theorem upAll_started (paths : List TempDir) (i : Nat) (nodes : List NodeState)
    (w : Machine RunNode) (hlen : i + paths.length ≤ nodes.length) : ∃ runs,
    (upAll nodeConfigs seedIp paths i nodes w).2.started = w.started ++ runs ∧
      ∀ run, run ∈ runs ↔ ∃ j path nodeConfig, paths[j]? = some path ∧
        nodeConfigs[i + j]? = some nodeConfig ∧ w.Succeeds (j + 1) ∧
          run = ⟨nodeConfig, seedIp, path, rackName (i + j)⟩ := by
  induction paths generalizing i nodes w with
  | nil => exact ⟨[], (List.append_nil _).symm, by simp⟩
  | cons path paths ih =>
    rw [List.length_cons] at hlen
    have hn : nodes[i]? = some nodes[i] := List.getElem?_eq_getElem (by omega)
    cases hc : nodeConfigs[i]? with
    | none =>
      unfold upAll
      rw [Code.bind_none (upRound_end hc)]
      refine ⟨[], (List.append_nil _).symm, fun run => iff_of_false List.not_mem_nil ?_⟩
      rintro ⟨j, _, nodeConfig, -, hj, -, -⟩
      have hge := List.getElem?_eq_none_iff.mp hc
      have hlt := (List.getElem?_eq_some_iff.mp hj).1
      omega
    | some nodeConfig =>
      cases hs : w.succeeds w.calls with
      | false =>
        unfold upAll
        rw [Code.bind_none (upRound_none hc hn hs)]
        refine ⟨[], (List.append_nil _).symm, fun run => iff_of_false List.not_mem_nil ?_⟩
        rintro ⟨j, -, -, -, -, hall, -⟩
        have hfirst := hall 0 (Nat.succ_pos j)
        rw [Nat.add_zero, hs] at hfirst
        cases hfirst
      | true =>
        have hsucc := Machine.succeeds_spawned hs ⟨nodeConfig, seedIp, path, rackName i⟩
        have harith : ∀ j, i + 1 + j = i + (j + 1) := fun j => by omega
        obtain ⟨runs, hstarted, hruns⟩ := ih (i + 1)
          (nodes.set i { nodes[i] with child := some w.next })
          (w.spawned ⟨nodeConfig, seedIp, path, rackName i⟩) (by rw [List.length_set]; omega)
        unfold upAll
        rw [Code.bind_some (upRound_some hc hn hs), hstarted]
        refine ⟨_ :: runs, List.append_assoc _ [_] runs, fun run => ?_⟩
        rw [List.mem_cons, hruns]
        constructor
        · rintro (rfl | ⟨j, path', c, hpath, hj, hall, rfl⟩)
          · exact ⟨0, path, nodeConfig, rfl, hc, (hsucc 0).mpr (Machine.succeeds_zero _), rfl⟩
          · rw [harith] at hj ⊢
            exact ⟨j + 1, path', c, hpath, hj, (hsucc (j + 1)).mpr hall, rfl⟩
        · rintro ⟨_ | j, path', c, hpath, hj, hall, rfl⟩
          · obtain rfl := Option.some.inj hpath
            obtain rfl := Option.some.inj (hc.symm.trans hj)
            exact Or.inl rfl
          · rw [← harith] at hj ⊢
            exact Or.inr ⟨j, path', c, hpath, hj, (hsucc (j + 1)).mp hall, rfl⟩

/-- **One message**: `up_node` finds the entry number `i` by its address. -/
theorem upNode_found {nodeConfig : ScyllaNodeConfig} {node : NodeState} {i : Nat} {path : TempDir}
    (hnodup : (state.nodes.map NodeState.dbIp).Nodup) (hi : state.nodes[i]? = some node)
    (hip : node.dbIp = nodeConfig.dbIp) (hpath : node.workdir = some path)
    (hseed : (state.nodes.map NodeState.dbIp).head? = some seedIp) :
    upNode nodeConfig state = (do
      let node ← runAgain node nodeConfig seedIp path (rackName i)
      return { state with nodes := state.nodes.set i node }) := by
  have hmem : nodeConfig.dbIp ∈ state.nodes.map NodeState.dbIp :=
    List.mem_map.mpr ⟨node, List.mem_of_getElem? hi, hip⟩
  obtain ⟨node', k, hf⟩ := find_isSome hmem
  obtain ⟨hk, hip', -⟩ := find_eq_some hf
  -- the first entry with the address is the only one
  have hips : ∀ (j : Nat) (n : NodeState), state.nodes[j]? = some n →
      (state.nodes.map NodeState.dbIp)[j]? = some n.dbIp := by
    intro j n hj
    rw [List.getElem?_map, hj]
    rfl
  have hlt := (List.getElem?_eq_some_iff.mp (hips k node' hk)).1
  have hki : k = i := by
    refine (List.getElem?_inj hlt hnodup).mp ?_
    rw [hips k node' hk, hips i node hi, hip, hip']
  subst hki
  obtain rfl := Option.some.inj (hk.symm.trans hi)
  obtain ⟨first, rest, hnodes, hup⟩ := upNode_some hf hpath
  rw [hnodes, List.map_cons, List.head?_cons] at hseed
  rw [hup, Option.some.inj hseed]

/-- An address that is found, and a process that fails to start. -/
theorem upNode_fails {nodeConfig : ScyllaNodeConfig}
    (hdirs : ∀ node ∈ state.nodes, node.workdir.isSome)
    (hmem : nodeConfig.dbIp ∈ state.nodes.map NodeState.dbIp) (hs : w.succeeds w.calls = false) :
    upNode nodeConfig state w = (none, w.called) := by
  obtain ⟨node, i, hf⟩ := find_isSome hmem
  obtain ⟨path, hpath⟩ :=
    Option.isSome_iff_exists.mp (hdirs node (List.mem_of_getElem? (find_spec hf)))
  obtain ⟨_, _, -, hup⟩ := upNode_some hf hpath
  rw [hup, Code.bind_none (runAgain_none hs)]

variable (nodeConfigs seedIp) in
/-- **The loop of `up`** does what the messages do one after the other, from number `i` on. -/
theorem upAll_eq_serve (places : List Place) (hips : (places.map Prod.fst).Nodup)
    (hseed : (places.map Prod.fst).head? = some seedIp)
    (hfound : ∀ c ∈ nodeConfigs, c.dbIp ∈ places.map Prod.fst)
    (hdirs : ∀ place ∈ places, place.2.isSome) (tempdir : Os.Path)
    (paths : List TempDir) (i : Nat) (nodes : List NodeState) (w : Machine RunNode)
    (hplaces : nodes.map NodeState.place = places)
    (hpaths : (places.map Prod.snd).drop i = paths.map some)
    (hlen : nodeConfigs.length = places.length)
    (horder : ∀ j < paths.length, w.Succeeds (j + 1) →
      (nodeConfigs.map ScyllaNodeConfig.dbIp)[i + j]? = (places.map Prod.fst)[i + j]?) :
    serve process ((nodeConfigs.drop i).map .upNode) ⟨tempdir, nodes⟩ w = (do
      let nodes ← upAll nodeConfigs seedIp paths i nodes
      return ⟨tempdir, nodes⟩ : Code _ State) w := by
  induction paths generalizing i nodes w with
  | nil =>
    have hle := List.drop_eq_nil_iff.mp hpaths
    rw [List.length_map, ← hlen] at hle
    rw [List.drop_eq_nil_of_le hle]
    rfl
  | cons path paths ih =>
    have hdbIps : nodes.map NodeState.dbIp = places.map Prod.fst := by
      rw [← hplaces, List.map_map]
      rfl
    have hi : (places.map Prod.snd)[i]? = some (some path) := by
      rw [← List.head?_drop, hpaths]
      rfl
    have hlt : i < nodes.length := by
      have := (List.getElem?_eq_some_iff.mp hi).1
      rwa [← hplaces, List.length_map, List.length_map] at this
    have hn : nodes[i]? = some nodes[i] := List.getElem?_eq_getElem hlt
    have hpath : nodes[i].workdir = some path := by
      rw [← hplaces, List.map_map, List.getElem?_map, hn] at hi
      exact Option.some.inj hi
    have hltc : i < nodeConfigs.length := by
      rwa [hlen, ← hplaces, List.length_map]
    have hc : nodeConfigs[i]? = some nodeConfigs[i] := List.getElem?_eq_getElem hltc
    rw [List.drop_eq_getElem_cons hltc, List.map_cons]
    cases hs : w.succeeds w.calls with
    | false =>
      have hmem : nodeConfigs[i].dbIp ∈ nodes.map NodeState.dbIp :=
        hdbIps ▸ hfound _ (List.getElem_mem hltc)
      have hsome : ∀ node ∈ nodes, node.workdir.isSome := fun node hnode =>
        hdirs node.place (hplaces ▸ List.mem_map_of_mem hnode)
      have hstep : process (.upNode nodeConfigs[i]) ⟨tempdir, nodes⟩ w = (none, w.called) :=
        upNode_fails hsome hmem hs
      rw [serve_cons_none hstep, upAll,
        Code.bind_none (Code.bind_none (upRound_none hc hn hs))]
    | true =>
      have hip : nodes[i].dbIp = nodeConfigs[i].dbIp := by
        have := horder 0 (Nat.succ_pos _) ((Machine.succeeds_spawned hs
          ⟨nodeConfigs[i], seedIp, path, rackName i⟩ 0).mpr (Machine.succeeds_zero _))
        rw [Nat.add_zero, ← hdbIps, List.getElem?_map, List.getElem?_map, hc, hn] at this
        exact (Option.some.inj this).symm
      have hstep : process (.upNode nodeConfigs[i]) ⟨tempdir, nodes⟩ w =
          (some ⟨tempdir, nodes.set i { nodes[i] with child := some w.next }⟩,
            w.spawned ⟨nodeConfigs[i], seedIp, path, rackName i⟩) := by
        rw [process, upNode_found (hdbIps ▸ hips) hn hip hpath (hdbIps ▸ hseed),
          Code.bind_some (runAgain_some hs)]
        rfl
      rw [serve_cons_some hstep, upAll, bind_assoc, Code.bind_some (upRound_some hc hn hs)]
      refine ih (i + 1) _ _ ((places_set hn _).trans hplaces) ?_ fun j hj hall => ?_
      · rw [← List.drop_drop, hpaths]
        rfl
      · rw [Nat.add_right_comm, Nat.add_assoc]
        exact horder (j + 1) (Nat.succ_lt_succ hj) ((Machine.succeeds_spawned hs _ _).mpr hall)

end Up

/-- A state of the actor between two messages. -/
def Reachable (tempdir : Os.Path) (state : State) (w : Machine RunNode) : Prop :=
  ∃ ms succeeds, serve process ms (State.new tempdir) { succeeds } = (some state, w)

theorem Reachable.inv {tempdir : Os.Path} {state : State} {w : Machine RunNode}
    (h : Reachable tempdir state w) : Inv state w ∧ Apart state.places w.tempDirs := by
  obtain ⟨ms, succeeds, hs⟩ := h
  exact serve_invariant (I := fun state w => Inv state w ∧ Apart state.places w.tempDirs)
    (fun _ _ _ _ _ hI hp => ⟨hI.1.process hp, apart_process hI.1 hI.2 hp⟩)
    ⟨Inv.init tempdir succeeds, apart_nil 0⟩ hs

section Agree

variable {tempdir : Os.Path} {state : State} {w : Machine RunNode}
  {nodeConfigs : List ScyllaNodeConfig}

/-- Without entries there is nothing to run. -/
theorem upAgrees_nil (hnodes : state.nodes = []) : UpAgrees [] state w := by
  have hup : up [] state = pure state := by rw [up, hnodes]
  have hp : process (.up []) state = pure state := hup
  refine ⟨?_, ?_, ?_⟩
  · rw [hp]
    exact List.Perm.refl _
  · rw [hp]
    rfl
  · rw [hp]
    simp

variable (w nodeConfigs) in
/-- What `Up` starts. -/
theorem up_started {first : NodeState} {rest : List NodeState} (hnodes : state.nodes = first :: rest)
    (hdirs : ∀ node ∈ state.nodes, node.workdir.isSome) : ∃ runs,
      (process (.up nodeConfigs) state w).2.started = w.started ++ runs ∧
      ∀ run, run ∈ runs ↔ ∃ i node path nodeConfig, state.nodes[i]? = some node ∧
        node.workdir = some path ∧ nodeConfigs[i]? = some nodeConfig ∧ w.Succeeds (i + 1) ∧
          run = ⟨nodeConfig, first.dbIp, path, rackName i⟩ := by
  obtain ⟨paths, hpaths, hup⟩ := up_cons nodeConfigs hnodes hdirs
  have hlen : paths.length = state.nodes.length := by
    simpa using (congrArg List.length hpaths).symm
  obtain ⟨runs, hstarted, hruns⟩ := upAll_started nodeConfigs first.dbIp
    paths 0 state.nodes w (by omega)
  refine ⟨runs, ?_, fun run => ?_⟩
  · rw [process, hup, Code.return_snd, hstarted]
  · rw [hruns]
    have hget : ∀ (i : Nat) (path : TempDir), paths[i]? = some path ↔
        ∃ node, state.nodes[i]? = some node ∧ node.workdir = some path := by
      intro i path
      rw [← Option.map_eq_some_iff, ← List.getElem?_map, hpaths, List.getElem?_map]
      simp
    simp only [hget, Nat.zero_add]
    constructor
    · rintro ⟨i, path, c, ⟨node, hn, hpath⟩, hc, hall, rfl⟩
      exact ⟨i, node, path, c, hn, hpath, hc, hall, rfl⟩
    · rintro ⟨i, node, path, c, hn, hpath, hc, hall, rfl⟩
      exact ⟨i, path, c, ⟨node, hn, hpath⟩, hc, hall, rfl⟩

theorem dbIps_eq : state.places.map Prod.fst = state.nodes.map NodeState.dbIp := by
  unfold State.places
  rw [List.map_map]
  rfl

/-- In the order of the entries, `Up` and the messages one by one are the same. -/
theorem up_eq_serve {first : NodeState} {rest : List NodeState} (hi : Inv state w)
    (hips : (state.nodes.map NodeState.dbIp).Nodup)
    (hperm : (nodeConfigs.map ScyllaNodeConfig.dbIp).Perm (state.nodes.map NodeState.dbIp))
    (hnodes : state.nodes = first :: rest) (h : InOrder nodeConfigs state w) :
    process (.up nodeConfigs) state w = serve process (nodeConfigs.map .upNode) state w := by
  obtain ⟨paths, hpaths, hup⟩ := up_cons nodeConfigs hnodes hi.workdir
  have hlen : paths.length = state.nodes.length := by
    simpa using (congrArg List.length hpaths).symm
  have hseed : (state.places.map Prod.fst).head? = some first.dbIp := by
    rw [dbIps_eq, hnodes]
    rfl
  have hserve := upAll_eq_serve nodeConfigs first.dbIp state.places (dbIps_eq ▸ hips) hseed
    (fun c hc => dbIps_eq ▸ hperm.subset (List.mem_map_of_mem hc))
    (fun place hp => by
      obtain ⟨node, hn, rfl⟩ := List.mem_map.mp hp
      exact hi.workdir node hn)
    state.tempdir paths 0 state.nodes w rfl
    (by rw [State.places, List.map_map]; exact hpaths)
    (by simpa using hperm.length_eq)
    (fun j hj hall => by
      rw [Nat.zero_add, dbIps_eq]
      exact h j (hlen ▸ hj) hall)
  rw [List.drop_zero] at hserve
  rw [process, hup]
  exact hserve.symm

/-- Entries with the same directory are the same. -/
theorem entry_eq (ha : Apart state.places w.tempDirs) {i k : Nat} {node node' : NodeState}
    (hi : state.nodes[i]? = some node) (hk : state.nodes[k]? = some node')
    (hdir : node.workdir = node'.workdir) : node = node' := by
  have hget : ∀ (j : Nat) (n : NodeState), state.nodes[j]? = some n →
      (state.places.map Prod.snd)[j]? = some n.workdir := by
    intro j n hj
    unfold State.places
    rw [List.map_map, List.getElem?_map, hj]
    rfl
  have hlt := (List.getElem?_eq_some_iff.mp (hget i node hi)).1
  have hik : i = k := by
    refine (List.getElem?_inj hlt ha.nodup).mp ?_
    rw [hget i node hi, hget k node' hk, hdir]
  subst hik
  exact Option.some.inj (hi.symm.trans hk)

/-- **`Up` does what `UpNode` does for each configuration** exactly when the configurations are in the
order of the entries, as far as their processes are started. -/
theorem up_agrees_iff (hr : Reachable tempdir state w)
    (hips : (state.nodes.map NodeState.dbIp).Nodup)
    (hperm : (nodeConfigs.map ScyllaNodeConfig.dbIp).Perm (state.nodes.map NodeState.dbIp)) :
    UpAgrees nodeConfigs state w ↔ InOrder nodeConfigs state w := by
  obtain ⟨hi, ha⟩ := hr.inv
  have hlen : nodeConfigs.length = state.nodes.length := by simpa using hperm.length_eq
  cases hnodes : state.nodes with
  | nil =>
    rw [hnodes, List.length_nil, List.length_eq_zero_iff] at hlen
    subst hlen
    exact iff_of_true (upAgrees_nil hnodes) fun i hlt => by simp [hnodes] at hlt
  | cons first rest =>
    obtain ⟨runs, hstarted, hruns⟩ := up_started w nodeConfigs hnodes hi.workdir
    constructor
    · intro h i hlt hall
      have hn : state.nodes[i]? = some state.nodes[i] := List.getElem?_eq_getElem hlt
      have hc : nodeConfigs[i]? = some nodeConfigs[i] := List.getElem?_eq_getElem (hlen ▸ hlt)
      obtain ⟨path, hpath⟩ := Option.isSome_iff_exists.mp (hi.workdir _ (List.getElem_mem hlt))
      have hplaced := h.placed
      rw [hstarted, List.drop_left] at hplaced
      have hmem := hplaced _ ((hruns _).mpr ⟨i, _, path, _, hn, hpath, hc, hall, rfl⟩)
      obtain ⟨node, hnode, he⟩ := List.mem_map.mp hmem
      obtain ⟨k, hk⟩ := List.mem_iff_getElem?.mp hnode
      obtain ⟨hip, hdir⟩ := Prod.mk.inj he
      obtain rfl := entry_eq ha hn hk (hpath.trans hdir.symm)
      rw [List.getElem?_map, List.getElem?_map, hc, hn, Option.map_some, Option.map_some, hip]
    · intro h
      have heq := up_eq_serve hi hips hperm hnodes h
      refine ⟨by rw [heq], by rw [heq], ?_⟩
      rw [hstarted, List.drop_left]
      intro run hrun
      obtain ⟨k, node, path, c, hk, hpath, hc, hall, rfl⟩ := (hruns run).mp hrun
      have horder := h k (List.getElem?_eq_some_iff.mp hk).1 hall
      rw [List.getElem?_map, List.getElem?_map, hc, hk] at horder
      refine List.mem_map.mpr ⟨node, List.mem_of_getElem? hk, ?_⟩
      exact Prod.ext (Option.some.inj horder).symm hpath

end Agree

/-- Two nodes that were taken down, and the configurations in their order. -/
theorem up_agrees_inOrder : ∃ state w, Reachable "/tmp".toList state w ∧
    (UpAgrees [{ dbIp := 1 }, { dbIp := 2 }] state w ↔
      InOrder [{ dbIp := 1 }, { dbIp := 2 }] state w) := by
  have hr : Reachable "/tmp".toList _ _ :=
    ⟨[.start [{ dbIp := 1 }, { dbIp := 2 }], .down true], fun _ => true, rfl⟩
  exact ⟨_, _, hr, up_agrees_iff hr (by decide) (by decide)⟩

/-- **`Up` mixes up the directories** when the configurations are in another order. -/
theorem up_swaps : ∃ state w, Reachable "/tmp".toList state w ∧
    (state.nodes.map NodeState.dbIp).Nodup ∧ (∀ node ∈ state.nodes, node.child = none) ∧
    ([2, 1] : List Ipv4Addr).Perm (state.nodes.map NodeState.dbIp) ∧
    ¬ UpAgrees [{ dbIp := 2 }, { dbIp := 1 }] state w := by
  have hr : Reachable "/tmp".toList _ _ :=
    ⟨[.start [{ dbIp := 1 }, { dbIp := 2 }], .down true], fun _ => true, rfl⟩
  refine ⟨_, _, hr, by decide, by decide, by decide, fun h => ?_⟩
  exact absurd h.placed (by decide)

end scylla_cluster

end E2etest
