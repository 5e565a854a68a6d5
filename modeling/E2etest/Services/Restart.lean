import E2etest.Services.ScyllaCluster

/-!
# Nodes that are run again (`e2etest-scylla-cluster`)

`run_node` is given a directory, a rack and a seed, and none but the directory is in the entry of the
node: `start` takes the rack from the position in the message, and `up_node` from that in
`state.nodes`.

`identity_kept_iff`: when `up_node` runs a node as the `Start` that created it did. The nodes of a
second `Start` get another rack.
-/

namespace E2etest

open Async Os

namespace scylla_cluster

/-! ## Where the nodes are -/

/-- The address of a node, and its directory. -/
abbrev Place := Ipv4Addr × Option TempDir

/-- The address and the directory of an entry. -/
def NodeState.place (node : NodeState) : Place := (node.dbIp, node.workdir)

/-- The address and the directory of a node that is run. -/
def RunNode.place (run : RunNode) : Place := (run.nodeConfig.dbIp, some run.path)

/-- The addresses and the directories of the entries. -/
abbrev State.places (state : State) : List Place := state.nodes.map NodeState.place

/-- What `start` calls `run_node` with, where directory number `n` is the next one. -/
def startRuns (tempdir : Path) (n : Nat) : List ScyllaNodeConfig → List RunNode
  | [] => []
  | first :: rest => (first :: rest).zipIdx.map fun c =>
    ⟨c.1, first.dbIp, ⟨tempdir, n + c.2⟩, rackName c.2⟩

/-- The nodes stay where they are. -/
structure Stays (state : State) (w : Machine RunNode) (state' : State) (w' : Machine RunNode) :
    Prop where
  places : state'.places = state.places
  tempDirs : w'.tempDirs = w.tempDirs

/-- The nodes of a `Start` are added to the others. -/
structure Grows (runs : List RunNode) (state : State) (w : Machine RunNode) (state' : State)
    (w' : Machine RunNode) : Prop where
  places : state'.places = state.places ++ runs.map RunNode.place
  started : w'.started = w.started ++ runs
  tempDirs : w'.tempDirs = w.tempDirs + runs.length

section Places

variable {state state' : State} {w w' : Machine RunNode}

theorem runNode_eq_some {nodeConfig : ScyllaNodeConfig} {seeds : Ipv4Addr} {path : TempDir}
    {rack : Os.Path} {child : Pid} (h : runNode nodeConfig seeds path rack w = (some child, w')) :
    w.succeeds w.calls = true ∧ child = w.next ∧ w' = w.spawned ⟨nodeConfig, seeds, path, rack⟩ :=
  spawn_eq_some.mp h

theorem startNode_eq_some {tempdir : Path} {seedIp : Ipv4Addr} {c : ScyllaNodeConfig × Nat}
    {node : NodeState} (h : startNode tempdir seedIp c w = (some node, w')) :
    node.place = (c.1.dbIp, some ⟨tempdir, w.tempDirs⟩) ∧
      w'.started = w.started ++ [⟨c.1, seedIp, ⟨tempdir, w.tempDirs⟩, rackName c.2⟩] ∧
      w'.tempDirs = w.tempDirs + 1 := by
  rw [startNode_eq] at h
  obtain ⟨child, w₁, hrun, h⟩ := Code.bind_eq_some.mp h
  obtain ⟨-, -, rfl⟩ := runNode_eq_some hrun
  cases h
  exact ⟨rfl, rfl, rfl⟩

/-- The loop of `start`, from number `k` on. -/
theorem pushAll_startNode {tempdir : Path} {seedIp : Ipv4Addr} {n k : Nat}
    {nodeConfigs : List ScyllaNodeConfig} {nodes nodes' : List NodeState}
    (hn : w.tempDirs = n + k)
    (h : pushAll (startNode tempdir seedIp) (nodeConfigs.zipIdx k) nodes w = (some nodes', w')) :
    let runs := (nodeConfigs.zipIdx k).map fun c =>
      (⟨c.1, seedIp, ⟨tempdir, n + c.2⟩, rackName c.2⟩ : RunNode)
    nodes'.map NodeState.place = nodes.map NodeState.place ++ runs.map RunNode.place ∧
      w'.started = w.started ++ runs ∧ w'.tempDirs = w.tempDirs + nodeConfigs.length := by
  induction nodeConfigs generalizing k nodes w with
  | nil =>
    cases h
    simp
  | cons c nodeConfigs ih =>
    rw [List.zipIdx_cons, pushAll] at h
    obtain ⟨node, w₁, hnode, h⟩ := Code.bind_eq_some.mp h
    obtain ⟨hplace, hstarted, hdirs⟩ := startNode_eq_some hnode
    obtain ⟨hplaces, hruns, htemp⟩ := ih (k := k + 1) (by omega) h
    rw [hn] at hplace hstarted
    refine ⟨?_, ?_, by rw [htemp, hdirs, List.length_cons]; omega⟩
    · rw [hplaces, List.map_append, List.map_singleton, hplace]
      simp [RunNode.place]
    · rw [hruns, hstarted]
      simp

theorem start_grows {nodeConfigs : List ScyllaNodeConfig}
    (h : start nodeConfigs state w = (some state', w')) :
    Grows (startRuns state.tempdir w.tempDirs nodeConfigs) state w state' w' := by
  cases nodeConfigs with
  | nil =>
    cases h
    exact ⟨by simp [startRuns], by simp [startRuns], rfl⟩
  | cons first rest =>
    obtain ⟨nodes, w₁, hpush, h⟩ := Code.bind_eq_some.mp h
    cases h
    obtain ⟨hplaces, hstarted, hdirs⟩ := pushAll_startNode (n := w.tempDirs) rfl hpush
    exact ⟨hplaces, hstarted, by simpa [startRuns] using hdirs⟩

/-- An entry that gets another child stays where it is. -/
theorem places_set {nodes : List NodeState} {i : Nat} {node : NodeState}
    (hi : nodes[i]? = some node) (child : Option Pid) :
    (nodes.set i { node with child }).map NodeState.place = nodes.map NodeState.place := by
  obtain ⟨hlt, rfl⟩ := List.getElem?_eq_some_iff.mp hi
  have hlt' : i < (nodes.map NodeState.place).length := by rwa [List.length_map]
  have hplace : NodeState.place { nodes[i] with child } = (nodes.map NodeState.place)[i] := by
    simp [NodeState.place]
  rw [List.map_set, hplace, List.set_getElem_self]

theorem runAgain_eq_some {node node' : NodeState} {nodeConfig : ScyllaNodeConfig}
    {seeds : Ipv4Addr} {path : TempDir} {rack : Os.Path}
    (h : runAgain node nodeConfig seeds path rack w = (some node', w')) :
    w.succeeds w.calls = true ∧ node' = { node with child := some w.next } ∧
      w' = w.spawned ⟨nodeConfig, seeds, path, rack⟩ := by
  obtain ⟨child, w₁, hrun, h⟩ := Code.bind_eq_some.mp h
  obtain ⟨hs, rfl, rfl⟩ := runNode_eq_some hrun
  cases h
  exact ⟨hs, rfl, rfl⟩

theorem upAll_stays {nodeConfigs : List ScyllaNodeConfig} {seedIp : Ipv4Addr}
    {paths : List TempDir} {i : Nat} {nodes nodes' : List NodeState}
    (h : upAll nodeConfigs seedIp paths i nodes w = (some nodes', w')) :
    nodes'.map NodeState.place = nodes.map NodeState.place ∧ w'.tempDirs = w.tempDirs := by
  induction paths generalizing i nodes w with
  | nil =>
    cases h
    exact ⟨rfl, rfl⟩
  | cons path paths ih =>
    obtain ⟨nodes₁, w₁, hround, h⟩ := Code.bind_eq_some.mp h
    obtain ⟨hplaces, hdirs⟩ := ih h
    obtain ⟨c, w₂, hc, hround⟩ := Code.bind_eq_some.mp hround
    obtain ⟨node, w₃, hnode, hround⟩ := Code.bind_eq_some.mp hround
    obtain ⟨node', w₄, hrun, hround⟩ := Code.bind_eq_some.mp hround
    obtain ⟨-, rfl⟩ := Code.expect_eq_some.mp hc
    obtain ⟨hi, rfl⟩ := Code.expect_eq_some.mp hnode
    obtain ⟨-, rfl, rfl⟩ := runAgain_eq_some hrun
    cases hround
    exact ⟨hplaces.trans (places_set hi _), hdirs⟩

theorem up_stays {nodeConfigs : List ScyllaNodeConfig} (hi : Inv state w)
    (h : up nodeConfigs state w = (some state', w')) : Stays state w state' w' := by
  cases hnodes : state.nodes with
  | nil =>
    unfold up at h
    rw [hnodes] at h
    cases h
    exact ⟨rfl, rfl⟩
  | cons first rest =>
    obtain ⟨paths, -, hup⟩ := up_cons nodeConfigs hnodes hi.workdir
    rw [hup] at h
    obtain ⟨nodes, w₁, hall, h⟩ := Code.bind_eq_some.mp h
    cases h
    obtain ⟨hplaces, hdirs⟩ := upAll_stays hall
    exact ⟨hplaces, hdirs⟩

theorem upNode_stays {nodeConfig : ScyllaNodeConfig} (hi : Inv state w)
    (h : upNode nodeConfig state w = (some state', w')) : Stays state w state' w' := by
  rcases hf : state.find nodeConfig.dbIp with _ | ⟨node, i⟩
  · rw [upNode_none hf] at h
    cases h
    exact ⟨rfl, rfl⟩
  · have hnode := find_spec hf
    obtain ⟨path, hpath⟩ := Option.isSome_iff_exists.mp (hi.workdir node (List.mem_of_getElem? hnode))
    obtain ⟨_, _, -, hup⟩ := upNode_some hf hpath
    rw [hup] at h
    obtain ⟨node', w₁, hrun, h⟩ := Code.bind_eq_some.mp h
    obtain ⟨-, rfl, rfl⟩ := runAgain_eq_some hrun
    cases h
    exact ⟨places_set hnode _, rfl⟩

theorem downNode_stays {dbIp : Ipv4Addr} (h : downNode state dbIp w = (some state', w')) :
    Stays state w state' w' := by
  rcases hf : state.find dbIp with _ | ⟨node, i⟩
  · unfold downNode at h
    rw [hf] at h
    cases h
    exact ⟨rfl, rfl⟩
  · rw [downNode_some hf] at h
    obtain ⟨_, w₁, hkill, h⟩ := Code.bind_eq_some.mp h
    cases h
    refine ⟨places_set (find_spec hf) _, ?_⟩
    cases hc : node.child with
    | none =>
      rw [hc] at hkill
      cases hkill
      rfl
    | some p =>
      rw [hc] at hkill
      rw [kill_eq_some hkill]
      rfl

/-- **What a message does to the places**: `Start` adds nodes, `Stop` removes all, and the others
leave them where they are. -/
theorem process_cases {m : ScyllaCluster} (hi : Inv state w)
    (h : process m state w = (some state', w')) :
    (∃ nodeConfigs, m = .start nodeConfigs ∧
      Grows (startRuns state.tempdir w.tempDirs nodeConfigs) state w state' w') ∨
    (∃ tx, m = .stop tx ∧ state'.nodes = []) ∨
    (∀ nodeConfigs, m ≠ .start nodeConfigs) ∧ (∀ tx, m ≠ .stop tx) ∧ Stays state w state' w' := by
  cases m with
  | start nodeConfigs => exact Or.inl ⟨nodeConfigs, rfl, start_grows h⟩
  | stop tx =>
    rw [process, Code.bind_some (stop_spec hi)] at h
    obtain ⟨-, rfl, -⟩ := Code.ensure_return_eq_some.mp h
    exact Or.inr (Or.inl ⟨tx, rfl, rfl⟩)
  | version tx =>
    obtain ⟨-, rfl, rfl⟩ := Code.ensure_return_eq_some.mp h
    exact Or.inr (Or.inr ⟨by simp, by simp, rfl, rfl⟩)
  | waitForReady tx =>
    obtain ⟨b, n, k, hcalls, -⟩ := process_waitForReady tx state w
    rw [hcalls, Code.answered_iff] at h
    obtain ⟨-, rfl, rfl⟩ := h
    exact Or.inr (Or.inr ⟨by simp, by simp, rfl, rfl⟩)
  | flush tx =>
    obtain ⟨b, n, hcalls, -⟩ := calls_ensure tx state w
    rw [process, flush, hcalls, Code.answered_iff] at h
    obtain ⟨-, rfl, rfl⟩ := h
    exact Or.inr (Or.inr ⟨by simp, by simp, rfl, rfl⟩)
  | up nodeConfigs => exact Or.inr (Or.inr ⟨by simp, by simp, up_stays hi h⟩)
  | upNode nodeConfig => exact Or.inr (Or.inr ⟨by simp, by simp, upNode_stays hi h⟩)
  | down tx =>
    rw [process, Code.bind_some (down_spec hi)] at h
    obtain ⟨-, rfl, rfl⟩ := Code.ensure_return_eq_some.mp h
    refine Or.inr (Or.inr ⟨by simp, by simp, ?_, rfl⟩)
    simp [State.places, NodeState.place, Function.comp_def]
  | downNode dbIp tx =>
    obtain ⟨state₁, w₁, hdown, h⟩ := Code.bind_eq_some.mp h
    obtain ⟨-, rfl, rfl⟩ := Code.ensure_return_eq_some.mp h
    exact Or.inr (Or.inr ⟨by simp, by simp, downNode_stays hdown⟩)

end Places

/-! ## Directories -/

/-- No two entries have the same directory, and the next one is new to all. -/
structure Apart (places : List Place) (n : Nat) : Prop where
  lt : ∀ place ∈ places, ∀ dir, place.2 = some dir → dir.number < n
  nodup : (places.map Prod.snd).Nodup

theorem apart_nil (n : Nat) : Apart [] n :=
  ⟨fun _ hp => absurd hp List.not_mem_nil, List.nodup_nil⟩

theorem length_startRuns {tempdir : Path} {n : Nat} {nodeConfigs : List ScyllaNodeConfig} :
    (startRuns tempdir n nodeConfigs).length = nodeConfigs.length := by
  cases nodeConfigs <;> simp [startRuns]

/-- Run number `i` of a `Start`. -/
theorem startRuns_getElem? {tempdir : Path} {n i : Nat} {nodeConfigs : List ScyllaNodeConfig}
    {run : RunNode} (h : (startRuns tempdir n nodeConfigs)[i]? = some run) :
    ∃ nodeConfig first, nodeConfigs[i]? = some nodeConfig ∧ nodeConfigs.head? = some first ∧
      run = ⟨nodeConfig, first.dbIp, ⟨tempdir, n + i⟩, rackName i⟩ := by
  cases nodeConfigs with
  | nil => cases h
  | cons first rest =>
    rw [startRuns, List.getElem?_map, List.getElem?_zipIdx, Option.map_map,
      Option.map_eq_some_iff] at h
    obtain ⟨nodeConfig, hc, rfl⟩ := h
    exact ⟨nodeConfig, first, hc, rfl, by simp⟩

/-- The directories of a `Start` are new, and no two are the same. -/
theorem Apart.grow {places : List Place} {n : Nat} (h : Apart places n) (tempdir : Path)
    (nodeConfigs : List ScyllaNodeConfig) :
    Apart (places ++ (startRuns tempdir n nodeConfigs).map RunNode.place)
      (n + (startRuns tempdir n nodeConfigs).length) := by
  have hnew : ∀ i run, (startRuns tempdir n nodeConfigs)[i]? = some run →
      run.path.number = n + i := by
    intro i run hi
    obtain ⟨_, _, -, -, rfl⟩ := startRuns_getElem? hi
    rfl
  constructor
  · intro place hp dir hdir
    rcases List.mem_append.mp hp with hp | hp
    · exact Nat.lt_add_right _ (h.lt place hp dir hdir)
    · obtain ⟨run, hr, rfl⟩ := List.mem_map.mp hp
      obtain ⟨i, hi⟩ := List.mem_iff_getElem?.mp hr
      obtain rfl := Option.some.inj hdir
      rw [hnew i run hi]
      exact Nat.add_lt_add_left (List.getElem?_eq_some_iff.mp hi).1 n
  · rw [List.map_append, List.map_map, List.nodup_append]
    refine ⟨h.nodup, ?_, ?_⟩
    · rw [List.nodup_iff_getElem?_ne_getElem?]
      intro i j hij hj heq
      rw [List.length_map] at hj
      rw [List.getElem?_map, List.getElem?_map, List.getElem?_eq_getElem hj,
        List.getElem?_eq_getElem (hij.trans hj)] at heq
      have hi' := hnew i _ (List.getElem?_eq_getElem (hij.trans hj))
      have hj' := hnew j _ (List.getElem?_eq_getElem hj)
      have hpath := congrArg TempDir.number (Option.some.inj (Option.some.inj heq))
      omega
    · rintro _ hold _ hrun rfl
      obtain ⟨place, hp, hdir⟩ := List.mem_map.mp hold
      obtain ⟨run, hr, rfl⟩ := List.mem_map.mp hrun
      obtain ⟨i, hi⟩ := List.mem_iff_getElem?.mp hr
      have hlt := h.lt place hp run.path hdir
      have hge := hnew i run hi
      omega

/-- Every message keeps the directories apart. -/
theorem apart_process {state state' : State} {w w' : Machine RunNode} {m : ScyllaCluster}
    (hi : Inv state w) (ha : Apart state.places w.tempDirs)
    (h : process m state w = (some state', w')) : Apart state'.places w'.tempDirs := by
  obtain ⟨nodeConfigs, rfl, hgrow⟩ | ⟨tx, rfl, hnil⟩ | ⟨-, -, hstay⟩ := process_cases hi h
  · rw [hgrow.places, hgrow.tempDirs]
    exact ha.grow _ _
  · unfold State.places
    rw [hnil]
    exact apart_nil _
  · rw [hstay.places, hstay.tempDirs]
    exact ha

/-! ## What a node was first run with -/

/-- What `up_node` calls `run_node` with, and the number of the entry. -/
def rerun (nodeConfig : ScyllaNodeConfig) (state : State) : Option (Nat × RunNode) :=
  match state.nodes, state.find nodeConfig.dbIp with
  | first :: _, some (node, i) => node.workdir.map fun path =>
    (i, ⟨nodeConfig, first.dbIp, path, rackName i⟩)
  | _, _ => none

/-- The runs by which `Start` created the entries, after a message that leads from `w` to `w'`. -/
def created (m : ScyllaCluster) (w w' : Machine RunNode) (runs : List RunNode) : List RunNode :=
  match m with
  | .start _ => runs ++ w'.started.drop w.started.length
  | .stop _ => []
  | _ => runs

/-- The runs by which `Start` created the entries that there are after the messages. -/
def firstRuns : List ScyllaCluster → State → Machine RunNode → List RunNode → List RunNode
  | [], _, _, runs => runs
  | m :: ms, state, w, runs =>
    match process m state w with
    | (some state', w') => firstRuns ms state' w' (created m w w' runs)
    | (none, _) => runs

/-- Whenever `UpNode` runs a node again, it is in the directory, the rack and with the seed that the
`Start` which created it ran it with. -/
def IdentityKept (ms : List ScyllaCluster) (tempdir : Path) (succeeds : Nat → Bool) : Prop :=
  ∀ ns nodeConfig, ns ++ [.upNode nodeConfig] <+: ms → ∀ state w,
    serve process ns (State.new tempdir) { succeeds } = (some state, w) →
      ∀ i run, rerun nodeConfig state = some (i, run) →
        ∃ first, (firstRuns ns (State.new tempdir) { succeeds } [])[i]? = some first ∧
          run.path = first.path ∧ run.rack = first.rack ∧ run.seeds = first.seeds

/-- The addresses of the first `Start` since the last `Stop`, after one more message. -/
def leads (ips : List Ipv4Addr) : ScyllaCluster → List Ipv4Addr
  | .start nodeConfigs => if ips = [] then nodeConfigs.map ScyllaNodeConfig.dbIp else ips
  | .stop _ => []
  | _ => ips

/-- The addresses of the first `Start` since the last `Stop`. -/
def firstStart (ms : List ScyllaCluster) : List Ipv4Addr := ms.foldl leads []

/-- Every `UpNode` is about a node of the first `Start` since the last `Stop`, or about none. -/
def OfFirstStart (ms : List ScyllaCluster) (tempdir : Path) (succeeds : Nat → Bool) : Prop :=
  ∀ ns nodeConfig, ns ++ [.upNode nodeConfig] <+: ms → ∀ state w,
    serve process ns (State.new tempdir) { succeeds } = (some state, w) →
      nodeConfig.dbIp ∈ state.nodes.map NodeState.dbIp → nodeConfig.dbIp ∈ firstStart ns

section Identity

variable {state state' : State} {w w' : Machine RunNode} {ips : List Ipv4Addr}
  {runs : List RunNode}

theorem rackName_inj {i j : Nat} (h : rackName i = rackName j) : i = j := by
  have hdigits := congrArg (Nat.ofDigitChars 10 · 0) (List.append_cancel_left h)
  simpa using hdigits

/-- **`up_node`** runs what `rerun` says. -/
theorem upNode_eq (nodeConfig : ScyllaNodeConfig) (h : ∀ node ∈ state.nodes, node.workdir.isSome) :
    upNode nodeConfig state =
    match rerun nodeConfig state, state.find nodeConfig.dbIp with
    | some (i, run), some (node, _) => (do
      let node ← runAgain node run.nodeConfig run.seeds run.path run.rack
      return { state with nodes := state.nodes.set i node })
    | _, _ => pure state := by
  unfold rerun upNode
  cases hnodes : state.nodes with
  | nil => rfl
  | cons first rest =>
    rcases hf : state.find nodeConfig.dbIp with _ | ⟨node, i⟩
    · rfl
    · obtain ⟨path, hpath⟩ :=
        Option.isSome_iff_exists.mp (h node (List.mem_of_getElem? (find_spec hf)))
      simp [hpath]

/-- What the runs by which the entries were created have to do with the entries, and with the
addresses `ips` of the first `Start`. -/
structure Origins (ips : List Ipv4Addr) (runs : List RunNode) (places : List Place) : Prop where
  places : places = runs.map RunNode.place
  leads : ips <+: runs.map fun run => run.nodeConfig.dbIp
  nonempty : ips = [] → runs = []
  same : ∀ i run, runs[i]? = some run → i < ips.length →
    run.rack = rackName i ∧ some run.seeds = ips.head?
  other : ∀ i run, runs[i]? = some run → ips.length ≤ i → run.rack ≠ rackName i

theorem origins_nil : Origins [] [] [] where
  places := rfl
  leads := List.nil_prefix
  nonempty _ := rfl
  same i run hi _ := by cases hi
  other i run hi _ := by cases hi

/-- The runs of another `Start`. -/
theorem Origins.start {places : List Place} (h : Origins ips runs places) (tempdir : Path) (n : Nat)
    (nodeConfigs : List ScyllaNodeConfig) :
    Origins (scylla_cluster.leads ips (.start nodeConfigs))
      (runs ++ startRuns tempdir n nodeConfigs)
      (places ++ (startRuns tempdir n nodeConfigs).map RunNode.place) := by
  have hips : (startRuns tempdir n nodeConfigs).map (fun run => run.nodeConfig.dbIp) =
      nodeConfigs.map ScyllaNodeConfig.dbIp := by
    cases nodeConfigs with
    | nil => rfl
    | cons first rest =>
      unfold startRuns
      rw [List.map_map]
      change (first :: rest).zipIdx.map (ScyllaNodeConfig.dbIp ∘ Prod.fst) = _
      rw [← List.map_map, List.zipIdx_map_fst]
  have hplaces : places ++ (startRuns tempdir n nodeConfigs).map RunNode.place =
      (runs ++ startRuns tempdir n nodeConfigs).map RunNode.place := by
    rw [List.map_append, h.places]
  unfold scylla_cluster.leads
  split_ifs with hnil
  · obtain rfl := h.nonempty hnil
    refine ⟨hplaces, by simp [hips], fun he => ?_, fun i run hi _ => ?_, fun i run hi hge => ?_⟩
    · rw [List.map_eq_nil_iff] at he
      rw [he]
      rfl
    · obtain ⟨nodeConfig, first, -, hhead, rfl⟩ := startRuns_getElem? hi
      exact ⟨rfl, by simp [hhead]⟩
    · have hlt := (List.getElem?_eq_some_iff.mp hi).1
      rw [List.nil_append, length_startRuns] at hlt
      rw [List.length_map] at hge
      omega
  · have hlen := h.leads.length_le
    rw [List.length_map] at hlen
    have hpos := List.length_pos_iff.mpr hnil
    have hnew : ∀ i run, (runs ++ startRuns tempdir n nodeConfigs)[i]? = some run →
        runs.length ≤ i → run.rack = rackName (i - runs.length) := by
      intro i run hi hge
      rw [List.getElem?_append_right hge] at hi
      obtain ⟨_, _, -, -, rfl⟩ := startRuns_getElem? hi
      rfl
    refine ⟨hplaces, ?_, fun he => absurd he hnil, fun i run hi hlt => ?_, fun i run hi hge => ?_⟩
    · rw [List.map_append]
      exact h.leads.trans (List.prefix_append _ _)
    · rw [List.getElem?_append_left (hlt.trans_le hlen)] at hi
      exact h.same i run hi hlt
    · by_cases hold : i < runs.length
      · rw [List.getElem?_append_left hold] at hi
        exact h.other i run hi hge
      · intro hrack
        -- the position in the message is not that in `state.nodes`
        have := rackName_inj ((hnew i run hi (Nat.le_of_not_lt hold)).symm.trans hrack)
        omega

theorem firstRuns_concat {ns : List ScyllaCluster} {m : ScyllaCluster} {state₀ : State}
    {w₀ : Machine RunNode} (hs : serve process ns state₀ w₀ = (some state, w))
    (hp : process m state w = (some state', w')) :
    firstRuns (ns ++ [m]) state₀ w₀ runs = created m w w' (firstRuns ns state₀ w₀ runs) := by
  induction ns generalizing state₀ w₀ runs with
  | nil =>
    cases hs
    simp only [List.nil_append, firstRuns, hp]
  | cons n ns ih =>
    rcases hn : process n state₀ w₀ with ⟨_ | state₁, w₁⟩
    · rw [serve_cons_none hn] at hs
      cases hs
    · rw [serve_cons_some hn] at hs
      rw [List.cons_append, firstRuns, firstRuns, hn]
      exact ih hs

/-- **In every run** the entries come from the runs of `Start` since the last `Stop`. -/
theorem serve_origins {ns : List ScyllaCluster} {tempdir : Path} {succeeds : Nat → Bool}
    (hs : serve process ns (State.new tempdir) { succeeds } = (some state, w)) :
    Inv state w ∧ Origins (firstStart ns) (firstRuns ns (State.new tempdir) { succeeds } [])
      state.places := by
  refine serve_history (H := fun ns state w => Inv state w ∧ Origins (firstStart ns)
    (firstRuns ns (State.new tempdir) { succeeds } []) state.places) ?_
    ⟨Inv.init tempdir succeeds, origins_nil⟩ hs
  rintro ns m state w state' w' hns ⟨hi, ho⟩ hp
  refine ⟨hi.process hp, ?_⟩
  rw [firstRuns_concat hns hp, firstStart, List.foldl_concat]
  change Origins (leads (firstStart ns) m) _ _
  obtain ⟨nodeConfigs, rfl, hgrow⟩ | ⟨tx, rfl, hnil⟩ | ⟨hstart, hstop, hstay⟩ :=
    process_cases hi hp
  · unfold created
    rw [hgrow.started, List.drop_left, hgrow.places]
    exact ho.start _ _ _
  · unfold State.places
    rw [hnil]
    exact origins_nil
  · have hsame : leads (firstStart ns) m = firstStart ns ∧
        created m w w' (firstRuns ns (State.new tempdir) { succeeds } []) =
          firstRuns ns (State.new tempdir) { succeeds } [] := by
      cases m with
      | start nodeConfigs => exact absurd rfl (hstart nodeConfigs)
      | stop tx => exact absurd rfl (hstop tx)
      | _ => exact ⟨rfl, rfl⟩
    rw [hsame.1, hsame.2, hstay.places]
    exact ho

theorem find_eq_some {ip : Ipv4Addr} {node : NodeState} {i : Nat}
    (h : state.find ip = some (node, i)) : state.nodes[i]? = some node ∧ node.dbIp = ip ∧
      ∀ (j : Nat) (n : NodeState), j < i → state.nodes[j]? = some n → n.dbIp ≠ ip := by
  obtain ⟨hip, k, hk, hkey, hbefore⟩ := List.find?_eq_some_iff_getElem.mp h
  rw [List.getElem_zipIdx, Nat.zero_add, Prod.mk.injEq] at hkey
  obtain ⟨rfl, rfl⟩ := hkey
  refine ⟨find_spec h, of_decide_eq_true hip, fun j n hj hn => ?_⟩
  have hfalse := hbefore j hj
  obtain ⟨hlt, rfl⟩ := List.getElem?_eq_some_iff.mp hn
  simpa using hfalse

theorem find_isSome {ip : Ipv4Addr} (h : ip ∈ state.nodes.map NodeState.dbIp) :
    ∃ node i, state.find ip = some (node, i) := by
  obtain ⟨node, hn, rfl⟩ := List.mem_map.mp h
  obtain ⟨j, hj⟩ := List.mem_iff_getElem?.mp hn
  have hsome : (state.find node.dbIp).isSome := by
    unfold State.find
    rw [List.find?_isSome]
    exact ⟨(node, j), List.mem_zipIdx_iff_getElem?.mpr hj, decide_eq_true rfl⟩
  obtain ⟨⟨node', i⟩, hf⟩ := Option.isSome_iff_exists.mp hsome
  exact ⟨node', i, hf⟩

theorem rerun_eq_some {nodeConfig : ScyllaNodeConfig} {i : Nat} {run : RunNode} :
    rerun nodeConfig state = some (i, run) ↔ ∃ first rest node path,
      state.nodes = first :: rest ∧ state.find nodeConfig.dbIp = some (node, i) ∧
        node.workdir = some path ∧ run = ⟨nodeConfig, first.dbIp, path, rackName i⟩ := by
  unfold rerun
  constructor
  · intro h
    split at h
    · rename_i first rest node k hnodes hf
      obtain ⟨path, hpath, he⟩ := Option.map_eq_some_iff.mp h
      obtain ⟨rfl, rfl⟩ := Prod.mk.inj he
      exact ⟨first, rest, node, path, hnodes, hf, hpath, rfl⟩
    · cases h
  · rintro ⟨first, rest, node, path, hnodes, hf, hpath, rfl⟩
    simp only [hnodes, hf, hpath, Option.map_some]

/-- The first `Start` made the first entries. -/
theorem Origins.leads_nodes (h : Origins ips runs state.places) :
    ips <+: state.nodes.map NodeState.dbIp := by
  have hips : state.nodes.map NodeState.dbIp = runs.map fun run => run.nodeConfig.dbIp := by
    have := congrArg (List.map Prod.fst) h.places
    rwa [State.places, List.map_map, List.map_map] at this
  rw [hips]
  exact h.leads

/-- `find` finds the first entry with the address, so one of the first `Start` if there is one. -/
theorem lt_length_iff {nodeConfig : ScyllaNodeConfig} {node : NodeState} {i : Nat}
    (h : ips <+: state.nodes.map NodeState.dbIp)
    (hf : state.find nodeConfig.dbIp = some (node, i)) :
    i < ips.length ↔ nodeConfig.dbIp ∈ ips := by
  obtain ⟨hi, hip, hbefore⟩ := find_eq_some hf
  have hget : ∀ (j : Nat) (hj : j < ips.length), ∃ n, state.nodes[j]? = some n ∧ n.dbIp = ips[j] := by
    intro j hj
    have := List.prefix_iff_getElem?.mp h j hj
    rwa [List.getElem?_map, Option.map_eq_some_iff] at this
  constructor
  · intro hlt
    obtain ⟨n, hn, he⟩ := hget i hlt
    obtain rfl := Option.some.inj (hi.symm.trans hn)
    rw [← hip, he]
    exact List.getElem_mem hlt
  · intro hmem
    obtain ⟨j, hj, he⟩ := List.getElem_of_mem hmem
    obtain ⟨n, hn, hn'⟩ := hget j hj
    by_contra hge
    exact hbefore j n (by omega) hn (hn'.trans he)

/-- **The condition of one message**: the node is run as it was first exactly when it is one of the
first `Start`. -/
theorem rerun_same_iff {nodeConfig : ScyllaNodeConfig} {i : Nat} {run : RunNode}
    (h : Origins ips runs state.places) (hrun : rerun nodeConfig state = some (i, run)) :
    (∃ first, runs[i]? = some first ∧ run.path = first.path ∧ run.rack = first.rack ∧
      run.seeds = first.seeds) ↔ nodeConfig.dbIp ∈ ips := by
  obtain ⟨head, rest, node, path, hnodes, hf, hpath, rfl⟩ := rerun_eq_some.mp hrun
  -- the run that created the entry
  have hplace : (runs.map RunNode.place)[i]? = some node.place := by
    rw [← h.places, State.places, List.getElem?_map, (find_eq_some hf).1]
    rfl
  rw [List.getElem?_map, Option.map_eq_some_iff] at hplace
  obtain ⟨first, hfirst, he⟩ := hplace
  have hpaths : path = first.path := by
    have := congrArg Prod.snd he
    exact Option.some.inj (hpath.symm.trans this.symm)
  rw [← lt_length_iff h.leads_nodes hf]
  constructor
  · rintro ⟨first', hfirst', -, hrack, -⟩
    by_contra hge
    exact h.other i first' hfirst' (Nat.le_of_not_lt hge) hrack.symm
  · intro hlt
    obtain ⟨hrack, hseeds⟩ := h.same i first hfirst hlt
    refine ⟨first, hfirst, hpaths, hrack.symm, ?_⟩
    obtain ⟨others, hothers⟩ := h.leads_nodes
    cases ips with
    | nil => cases hlt
    | cons ip ips =>
      rw [hnodes, List.map_cons, List.cons_append, List.cons.injEq] at hothers
      rw [List.head?_cons, hothers.1] at hseeds
      exact (Option.some.inj hseeds).symm

end Identity

/-- **A node that is run again keeps its directory, rack and seed** exactly when every `UpNode` is
about a node of the first `Start` since the last `Stop`. -/
theorem identity_kept_iff (ms : List ScyllaCluster) (tempdir : Path) (succeeds : Nat → Bool) :
    IdentityKept ms tempdir succeeds ↔ OfFirstStart ms tempdir succeeds := by
  refine forall₅_congr fun ns nodeConfig hns state w => forall_congr' fun hs => ?_
  obtain ⟨hi, ho⟩ := serve_origins hs
  constructor
  · intro h hmem
    obtain ⟨node, i, hf⟩ := find_isSome hmem
    obtain ⟨path, hpath⟩ :=
      Option.isSome_iff_exists.mp (hi.workdir node (List.mem_of_getElem? (find_spec hf)))
    obtain ⟨first, rest, hnodes⟩ := List.exists_cons_of_ne_nil (l := state.nodes) fun hnil => by
      rw [hnil] at hmem
      cases hmem
    have hrun := rerun_eq_some.mpr ⟨first, rest, node, path, hnodes, hf, hpath, rfl⟩
    exact (rerun_same_iff ho hrun).mp (h i _ hrun)
  · intro h i run hrun
    refine (rerun_same_iff ho hrun).mpr (h ?_)
    obtain ⟨first, rest, node, path, -, hf, -, -⟩ := rerun_eq_some.mp hrun
    obtain ⟨hi, hip, -⟩ := find_eq_some hf
    exact List.mem_map.mpr ⟨node, List.mem_of_getElem? hi, hip⟩

/-- **A node of a second `Start` comes back in another rack**, with another seed. -/
theorem second_start_moves : ¬ IdentityKept
    [.start [{ dbIp := 1 }], .start [{ dbIp := 2 }], .downNode 2 true, .upNode { dbIp := 2 }]
    "/tmp".toList fun _ => true := by
  intro h
  obtain ⟨first, hfirst, -, hrack, -⟩ := h [.start [{ dbIp := 1 }], .start [{ dbIp := 2 }],
    .downNode 2 true] { dbIp := 2 } List.prefix_rfl _ _ rfl _ _ rfl
  obtain rfl := Option.some.inj hfirst
  exact absurd hrack (by decide)

end scylla_cluster

end E2etest
