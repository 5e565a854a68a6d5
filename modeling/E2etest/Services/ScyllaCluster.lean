import E2etest.Os.Process

/-!
# The ScyllaDB cluster manager (`e2etest-scylla-cluster`)

The actor keeps an entry for each node of the cluster, with the handle of its process. The machine
logs what `run_node` is called with (`RunNode`); the files and the command line `run_node` makes are
functions of that.

`orphans_iff`: when every process that was spawned and not killed is the child of exactly one
entry, at every message boundary and until none is left at the end. `Up` and `UpNode` start a
process for an entry whatever the entry holds.
-/

namespace E2etest

open Async Os

/-- `ScyllaNodeConfig`. -/
structure ScyllaNodeConfig where
  dbIp : Ipv4Addr
  primaryVsUris : List Path := []
  secondaryVsUris : List Path := []
  args : List Path := []
  certPath : Option Path := none
  keyPath : Option Path := none
  extraConfig : Option (List UInt8) := none
  deriving DecidableEq, Repr

/-- `ScyllaCluster`. The flags `tx` say that the answer is still waited for. -/
inductive ScyllaCluster
  | version (tx : Bool)
  | start (nodeConfigs : List ScyllaNodeConfig)
  | waitForReady (tx : Bool)
  | stop (tx : Bool)
  | up (nodeConfigs : List ScyllaNodeConfig)
  | upNode (nodeConfig : ScyllaNodeConfig)
  | down (tx : Bool)
  | downNode (dbIp : Ipv4Addr) (tx : Bool)
  | flush (tx : Bool)
  deriving DecidableEq, Repr

namespace scylla_cluster

/-- What `run_node` is called with. -/
structure RunNode where
  nodeConfig : ScyllaNodeConfig
  seeds : Ipv4Addr
  path : TempDir
  rack : Path
  deriving DecidableEq, Repr

/-- `NodeState`. -/
structure NodeState where
  dbIp : Ipv4Addr
  child : Option Pid
  workdir : Option TempDir
  deriving DecidableEq, Repr

/-- `State`, less what only `run_node` reads. -/
structure State where
  tempdir : Path
  nodes : List NodeState
  deriving DecidableEq, Repr

/-- `State::new`. -/
def State.new (tempdir : Path) : State := ⟨tempdir, []⟩

/-- `format!("rack{}", i + 1)`. -/
def rackName (i : Nat) : Path := "rack".toList ++ Nat.toDigits 10 (i + 1)

/-- `run_node`. -/
def runNode (nodeConfig : ScyllaNodeConfig) (seeds : Ipv4Addr) (path : TempDir) (rack : Path) :
    Code (Machine RunNode) Pid := spawn ⟨nodeConfig, seeds, path, rack⟩

/-- `run_node` for an entry that there is: `state.nodes[i].child = Some(child)`. -/
def runAgain (node : NodeState) (nodeConfig : ScyllaNodeConfig) (seeds : Ipv4Addr)
    (path : TempDir) (rack : Path) : Code (Machine RunNode) NodeState := do
  let child ← runNode nodeConfig seeds path rack
  return { node with child := some child }

/-- One round of the loop of `start`. -/
def startNode (tempdir : Path) (seedIp : Ipv4Addr) :
    ScyllaNodeConfig × Nat → Code (Machine RunNode) NodeState
  | (nodeConfig, i) => do
    let workdir ← newTempDir tempdir
    let child ← runNode nodeConfig seedIp workdir (rackName i)
    return ⟨nodeConfig.dbIp, some child, some workdir⟩

/-- `start`. -/
def start (nodeConfigs : List ScyllaNodeConfig) (state : State) :
    Code (Machine RunNode) State :=
  match nodeConfigs with
  | [] => return state
  | first :: _ => do
    let nodes ← pushAll (startNode state.tempdir first.dbIp) nodeConfigs.zipIdx state.nodes
    return { state with nodes }

/-- `stop`. -/
def stop (state : State) : Code (Machine RunNode) State := do
  let _ ← state.nodes.mapM fun node => do
    killChild node.child
    return { node with child := none, workdir := none }
  return { state with nodes := [] }

/-- `down`. -/
def down (state : State) : Code (Machine RunNode) State := do
  let nodes ← state.nodes.mapM fun node => do
    killChild node.child
    return { node with child := none }
  return { state with nodes }

/-- The first entry with the address, and its number. -/
def State.find (state : State) (dbIp : Ipv4Addr) : Option (NodeState × Nat) :=
  state.nodes.zipIdx.find? fun n => n.1.dbIp = dbIp

/-- `down_node`. -/
def downNode (state : State) (dbIp : Ipv4Addr) : Code (Machine RunNode) State :=
  match state.find dbIp with
  | none => return state
  | some (node, i) => do
    killChild node.child
    return { state with nodes := state.nodes.set i { node with child := none } }

/-- A process runs that was started for the address. -/
def isUp (ip : Ipv4Addr) (w : Machine RunNode) : Bool :=
  decide (∃ p ∈ w.running, w.started[p]?.map (fun run => run.nodeConfig.dbIp) = some ip)

/-- `wait_for_node`. It runs `nodetool` until that says that the node is up, and then tries the port
until it is open: after a while, if a process runs there, and never if none does. -/
def waitForNode (ip : Ipv4Addr) : Code (Machine RunNode) Unit := do
  call
  waitUntil (isUp ip)

/-- `wait_for_ready`. -/
def waitForReady (state : State) : Code (Machine RunNode) Bool := do
  forM state.nodes fun node => waitForNode node.dbIp
  return !state.nodes.isEmpty

/-- One round of the loop of `up`. -/
def upRound (nodeConfigs : List ScyllaNodeConfig) (seedIp : Ipv4Addr) (path : TempDir) (i : Nat)
    (nodes : List NodeState) : Code (Machine RunNode) (List NodeState) := do
  let nodeConfig ← Code.expect nodeConfigs[i]?
  let node ← Code.expect nodes[i]?
  let node ← runAgain node nodeConfig seedIp path (rackName i)
  return nodes.set i node

/-- The loop of `up`, from number `i` on. -/
def upAll (nodeConfigs : List ScyllaNodeConfig) (seedIp : Ipv4Addr) :
    List TempDir → Nat → List NodeState → Code (Machine RunNode) (List NodeState)
  | [], _, nodes => pure nodes
  | path :: paths, i, nodes => do
    let nodes ← upRound nodeConfigs seedIp path i nodes
    upAll nodeConfigs seedIp paths (i + 1) nodes

/-- `up`. -/
def up (nodeConfigs : List ScyllaNodeConfig) (state : State) : Code (Machine RunNode) State :=
  match state.nodes with
  | [] => return state
  | first :: _ => do
    let paths ← state.nodes.mapM fun node => Code.expect node.workdir
    let nodes ← upAll nodeConfigs first.dbIp paths 0 state.nodes
    return { state with nodes }

/-- `up_node`. -/
def upNode (nodeConfig : ScyllaNodeConfig) (state : State) : Code (Machine RunNode) State :=
  match state.nodes with
  | [] => return state
  | first :: _ =>
    match state.find nodeConfig.dbIp with
    | none => return state
    | some (node, i) => do
      let path ← Code.expect node.workdir
      let node ← runAgain node nodeConfig first.dbIp path (rackName i)
      return { state with nodes := state.nodes.set i node }

/-- `flush`. A `nodetool` that fails is logged, one that cannot be run is not expected. -/
def flush (state : State) : Code (Machine RunNode) Unit := forM state.nodes fun _ => call

/-- `process`. -/
def process : ScyllaCluster → State → Code (Machine RunNode) State
  | .version tx, state => do
    Code.ensure tx
    return state
  | .start nodeConfigs, state => start nodeConfigs state
  | .stop tx, state => do
    let state ← stop state
    Code.ensure tx
    return state
  | .waitForReady tx, state => do
    let _ ← waitForReady state
    Code.ensure tx
    return state
  | .up nodeConfigs, state => up nodeConfigs state
  | .upNode nodeConfig, state => upNode nodeConfig state
  | .down tx, state => do
    let state ← down state
    Code.ensure tx
    return state
  | .downNode dbIp tx, state => do
    let state ← downNode state dbIp
    Code.ensure tx
    return state
  | .flush tx, state => do
    flush state
    Code.ensure tx
    return state

/-- What the actor does: it processes the messages, and stops the cluster when the channel closes. -/
def actor (ms : List ScyllaCluster) (state : State) : Code (Machine RunNode) State := do
  let state ← serve process ms state
  stop state

/-! ## What the operations do to the processes -/

/-- The children of the entries. -/
abbrev State.children (state : State) : List (Option Pid) := state.nodes.map NodeState.child

/-- What every operation keeps: the handles are of running processes, one to an entry, and every
entry has its directory. -/
structure Inv (state : State) (w : Machine RunNode) : Prop where
  sound : Sound state.children w
  workdir : ∀ node ∈ state.nodes, node.workdir.isSome

/-- Every process spawned and not killed is the child of exactly one entry; an actor that is gone
has left none. -/
def Owned (state : Option State) (w : Machine RunNode) : Prop :=
  Kept NodeState.child (state.map State.nodes) w

section Operations

variable {state state' : State} {w w' : Machine RunNode}

theorem startNode_eq (tempdir : Path) (seedIp : Ipv4Addr) (c : ScyllaNodeConfig × Nat)
    (w : Machine RunNode) : startNode tempdir seedIp c w = (do
      let child ← runNode c.1 seedIp ⟨tempdir, w.tempDirs⟩ (rackName c.2)
      return ⟨c.1.dbIp, some child, some ⟨tempdir, w.tempDirs⟩⟩ : Code _ NodeState)
        (w.withTempDirs (w.tempDirs + 1)) := rfl

theorem starts_startNode (tempdir : Path) (seedIp : Ipv4Addr) (c : ScyllaNodeConfig × Nat) :
    Starts NodeState.child (startNode tempdir seedIp c) where
  starts w hs := by
    have hrun : runNode c.1 seedIp ⟨tempdir, w.tempDirs⟩ (rackName c.2)
        (w.withTempDirs (w.tempDirs + 1)) = (some w.next, _) := spawn_some hs
    rw [startNode_eq, Code.bind_some hrun]
    exact ⟨_, _, _, rfl, rfl⟩
  panics w hs := by
    have hrun : runNode c.1 seedIp ⟨tempdir, w.tempDirs⟩ (rackName c.2)
        (w.withTempDirs (w.tempDirs + 1)) = (none, _) := spawn_none hs
    rw [startNode_eq, Code.bind_none hrun]
    exact ⟨_, rfl, rfl⟩

theorem startNode_workdir {tempdir : Path} {seedIp : Ipv4Addr} {c : ScyllaNodeConfig × Nat}
    {node : NodeState} (h : startNode tempdir seedIp c w = (some node, w')) :
    node.workdir.isSome := by
  rw [startNode_eq] at h
  rcases hr : runNode c.1 seedIp ⟨tempdir, w.tempDirs⟩ (rackName c.2)
    (w.withTempDirs (w.tempDirs + 1)) with ⟨_ | p, w₁⟩
  · rw [Code.bind_none hr] at h
    cases h
  · rw [Code.bind_some hr] at h
    cases h
    rfl

theorem start_spec (nodeConfigs : List ScyllaNodeConfig) (h : Inv state w) :
    (∀ state' w', start nodeConfigs state w = (some state', w') → Inv state' w') ∧
    (Owned (start nodeConfigs state w).1 (start nodeConfigs state w).2 ↔ Held state.children w ∧
      (w.Succeeds nodeConfigs.length ∨ w.running = ∅ ∧ w.succeeds w.calls = false)) := by
  cases nodeConfigs with
  | nil =>
    refine ⟨fun _ _ hs => ?_, (and_iff_left (Or.inl w.succeeds_zero)).symm⟩
    cases hs
    exact h
  | cons first rest =>
    have hmake : ∀ c ∈ (first :: rest).zipIdx, Starts NodeState.child
        (startNode state.tempdir first.dbIp c) := fun c _ => starts_startNode _ _ c
    have hkept := kept_pushAll hmake h.sound
    rw [List.length_zipIdx] at hkept
    rw [← hkept]
    rcases hp : pushAll (startNode state.tempdir first.dbIp) (first :: rest).zipIdx state.nodes w
      with ⟨_ | nodes, w₁⟩
    · rw [start, Code.bind_none hp]
      exact ⟨nofun, Iff.rfl⟩
    · rw [start, Code.bind_some hp]
      refine ⟨fun _ _ hs => ?_, Iff.rfl⟩
      cases hs
      exact ⟨h.sound.pushAll hmake hp,
        forall_pushAll (fun _ _ _ _ => startNode_workdir) h.workdir hp⟩

theorem stop_spec (h : Inv state w) :
    stop state w = (some { state with nodes := [] }, w.without state.children) := by
  unfold stop
  rw [mapM_killChild NodeState.child, bind_assoc, Code.bind_some h.sound.killAll]
  rfl

theorem down_spec (h : Inv state w) : down state w =
    (some { state with nodes := state.nodes.map fun node => { node with child := none } },
      w.without state.children) := by
  unfold down
  rw [mapM_killChild NodeState.child, bind_assoc, Code.bind_some h.sound.killAll]
  rfl

theorem find_spec {dbIp : Ipv4Addr} {node : NodeState} {i : Nat}
    (h : state.find dbIp = some (node, i)) : state.nodes[i]? = some node := by
  have hmem := List.mem_of_find?_eq_some h
  exact List.mem_zipIdx_iff_getElem?.mp hmem

theorem downNode_some {dbIp : Ipv4Addr} {node : NodeState} {i : Nat}
    (h : state.find dbIp = some (node, i)) : downNode state dbIp = (do
      killChild node.child
      return { state with nodes := state.nodes.set i { node with child := none } }) := by
  unfold downNode
  rw [h]

theorem downNode_spec (dbIp : Ipv4Addr) (h : Inv state w) : ∃ state' w',
    downNode state dbIp w = (some state', w') ∧ Inv state' w' ∧
      (Held state'.children w' ↔ Held state.children w) ∧
      ∀ p, p ∈ w'.running ↔ p ∈ w.running ∧
        ∀ node i, state.find dbIp = some (node, i) → node.child ≠ some p := by
  rcases hf : state.find dbIp with _ | ⟨node, i⟩
  · unfold downNode
    rw [hf]
    exact ⟨state, w, rfl, h, Iff.rfl, fun p => (and_iff_left nofun).symm⟩
  · have hi := find_spec hf
    obtain ⟨w', hkill, hsound, hheld, hr⟩ := h.sound.clear hi { node with child := none } rfl
    have hdirs : ∀ n ∈ state.nodes.set i { node with child := none }, n.workdir.isSome := by
      intro n hn
      rcases List.mem_or_eq_of_mem_set hn with hn | rfl
      · exact h.workdir n hn
      · exact h.workdir node (List.mem_of_getElem? hi)
    rw [downNode_some hf]
    refine ⟨{ state with nodes := _ }, w', Code.bind_some hkill, ⟨hsound, hdirs⟩, hheld,
      fun p => ?_⟩
    rw [hr]
    refine and_congr_right fun _ => ⟨?_, fun hall => hall node i rfl⟩
    rintro hne _ _ ⟨⟩
    exact hne

theorem runAgain_some {node : NodeState} {nodeConfig : ScyllaNodeConfig} {seeds : Ipv4Addr}
    {path : TempDir} {rack : Os.Path} (h : w.succeeds w.calls = true) :
    runAgain node nodeConfig seeds path rack w =
      (some { node with child := some w.next }, w.spawned ⟨nodeConfig, seeds, path, rack⟩) := by
  have hrun : runNode nodeConfig seeds path rack w = (some w.next, _) := spawn_some h
  unfold runAgain
  rw [Code.bind_some hrun]
  rfl

theorem runAgain_none {node : NodeState} {nodeConfig : ScyllaNodeConfig} {seeds : Ipv4Addr}
    {path : TempDir} {rack : Os.Path} (h : w.succeeds w.calls = false) :
    runAgain node nodeConfig seeds path rack w = (none, w.called) := by
  have hrun : runNode nodeConfig seeds path rack w = (none, _) := spawn_none h
  unfold runAgain
  rw [Code.bind_none hrun]

/-- **An entry is run again**: its process is held unless it already had one. -/
theorem Inv.runAgain {tempdir : Path} {nodes : List NodeState} (h : Inv ⟨tempdir, nodes⟩ w)
    {node : NodeState} {i : Nat} (hn : nodes[i]? = some node) (run : RunNode) :
    Inv ⟨tempdir, nodes.set i { node with child := some w.next }⟩ (w.spawned run) ∧
      (Held ((nodes.set i { node with child := some w.next }).map NodeState.child) (w.spawned run) ↔
        Held (nodes.map NodeState.child) w ∧ node.child = none) := by
  have hslot : (nodes.map NodeState.child)[i]? = some node.child := by
    rw [List.getElem?_map, hn]
    rfl
  have hmap : (nodes.set i { node with child := some w.next }).map NodeState.child =
      (nodes.map NodeState.child).set i (some w.next) := List.map_set
  refine ⟨⟨?_, fun n hn' => ?_⟩, ?_⟩
  · unfold State.children
    rw [hmap]
    exact h.sound.put hslot run
  · rcases List.mem_or_eq_of_mem_set hn' with hn' | rfl
    · exact h.workdir n hn'
    · exact h.workdir node (List.mem_of_getElem? hn)
  · rw [hmap]
    exact held_put h.sound hslot run

theorem upNode_none {nodeConfig : ScyllaNodeConfig} (h : state.find nodeConfig.dbIp = none) :
    upNode nodeConfig state = pure state := by
  unfold upNode
  split
  · rfl
  · rw [h]

theorem upNode_some {nodeConfig : ScyllaNodeConfig} {node : NodeState} {i : Nat} {path : TempDir}
    (h : state.find nodeConfig.dbIp = some (node, i)) (hpath : node.workdir = some path) :
    ∃ first rest, state.nodes = first :: rest ∧ upNode nodeConfig state = (do
      let node ← runAgain node nodeConfig first.dbIp path (rackName i)
      return { state with nodes := state.nodes.set i node }) := by
  unfold upNode
  split
  · rename_i hnil
    have hi := find_spec h
    rw [hnil] at hi
    cases hi
  · rename_i first rest hnodes
    exact ⟨first, rest, hnodes, by rw [h]; simp only [hpath, Code.expect_some, pure_bind]⟩

theorem upNode_spec (nodeConfig : ScyllaNodeConfig) (h : Inv state w) :
    (∀ state' w', upNode nodeConfig state w = (some state', w') → Inv state' w') ∧
    (Owned (upNode nodeConfig state w).1 (upNode nodeConfig state w).2 ↔
      Held state.children w ∧ ∀ node i, state.find nodeConfig.dbIp = some (node, i) →
        node.child = none ∧ (w.succeeds w.calls = true ∨ w.running = ∅)) := by
  rcases hf : state.find nodeConfig.dbIp with _ | ⟨node, i⟩
  · rw [upNode_none hf]
    refine ⟨fun _ _ hs => ?_, (and_iff_left nofun).symm⟩
    cases hs
    exact h
  · have hi := find_spec hf
    have hmem := List.mem_of_getElem? hi
    obtain ⟨path, hpath⟩ := Option.isSome_iff_exists.mp (h.workdir node hmem)
    obtain ⟨first, _, -, hup⟩ := upNode_some hf hpath
    rw [hup]
    cases hc : w.succeeds w.calls with
    | false =>
      rw [Code.bind_none (runAgain_none hc)]
      refine ⟨nofun, ?_⟩
      change w.running = ∅ ↔ _
      constructor
      · intro hidle
        refine ⟨Held.of_idle hidle, ?_⟩
        rintro _ _ ⟨⟩
        exact ⟨h.sound.child_none hidle hmem, Or.inr hidle⟩
      · rintro ⟨-, hall⟩
        exact (hall node i rfl).2.resolve_left Bool.false_ne_true
    | true =>
      obtain ⟨hinv, hheld⟩ := h.runAgain hi ⟨nodeConfig, first.dbIp, path, rackName i⟩
      rw [Code.bind_some (runAgain_some hc)]
      refine ⟨fun _ _ hs => ?_, ?_⟩
      · cases hs
        exact hinv
      · refine hheld.trans (and_congr_right fun _ => ?_)
        constructor
        · rintro hnone _ _ ⟨⟩
          exact ⟨hnone, Or.inl rfl⟩
        · exact fun hall => (hall node i rfl).1

/-- What a round of the loop of `up` calls, when there is a configuration for it. -/
theorem upRound_eq {nodeConfigs : List ScyllaNodeConfig} (seedIp : Ipv4Addr) (path : TempDir)
    {i : Nat} {nodes : List NodeState} {nodeConfig : ScyllaNodeConfig} {node : NodeState}
    (hc : nodeConfigs[i]? = some nodeConfig) (hn : nodes[i]? = some node) :
    upRound nodeConfigs seedIp path i nodes = (do
      let node ← runAgain node nodeConfig seedIp path (rackName i)
      return nodes.set i node) := by
  unfold upRound
  rw [hc, hn]
  rfl

section Round

variable {nodeConfigs : List ScyllaNodeConfig} {seedIp : Ipv4Addr} {path : TempDir} {i : Nat}
  {nodes : List NodeState} {nodeConfig : ScyllaNodeConfig} {node : NodeState}

/-- The round has no configuration. -/
theorem upRound_end (hc : nodeConfigs[i]? = none) :
    upRound nodeConfigs seedIp path i nodes w = (none, w) := by
  unfold upRound
  rw [hc]
  rfl

/-- The process of the round does not start. -/
theorem upRound_none (hc : nodeConfigs[i]? = some nodeConfig) (hn : nodes[i]? = some node)
    (hs : w.succeeds w.calls = false) :
    upRound nodeConfigs seedIp path i nodes w = (none, w.called) := by
  rw [upRound_eq seedIp path hc hn, Code.bind_none (runAgain_none hs)]

/-- The process of the round starts. -/
theorem upRound_some (hc : nodeConfigs[i]? = some nodeConfig) (hn : nodes[i]? = some node)
    (hs : w.succeeds w.calls = true) :
    upRound nodeConfigs seedIp path i nodes w =
      (some (nodes.set i { node with child := some w.next }),
        w.spawned ⟨nodeConfig, seedIp, path, rackName i⟩) := by
  rw [upRound_eq seedIp path hc hn, Code.bind_some (runAgain_some hs)]
  rfl

end Round

theorem mapM_expect {ns : List NodeState} (h : ∀ node ∈ ns, node.workdir.isSome) :
    ∃ paths : List TempDir, ns.map NodeState.workdir = paths.map some ∧
      ns.mapM (fun node => Code.expect (W := Machine RunNode) node.workdir) = pure paths := by
  induction ns with
  | nil => exact ⟨[], rfl, rfl⟩
  | cons n ns ih =>
    obtain ⟨hn, hns⟩ := List.forall_mem_cons.mp h
    obtain ⟨path, hp⟩ := Option.isSome_iff_exists.mp hn
    obtain ⟨paths, hdirs, hps⟩ := ih hns
    exact ⟨path :: paths, by simp [hp, hdirs], by simp [List.mapM_cons, hp, hps]⟩

/-- What `up` does when there are entries. -/
theorem up_cons (nodeConfigs : List ScyllaNodeConfig) {first : NodeState} {rest : List NodeState}
    (hnodes : state.nodes = first :: rest) (h : ∀ node ∈ state.nodes, node.workdir.isSome) :
    ∃ paths : List TempDir, state.nodes.map NodeState.workdir = paths.map some ∧
      up nodeConfigs state = (do
        let nodes ← upAll nodeConfigs first.dbIp paths 0 state.nodes
        return { state with nodes }) := by
  obtain ⟨paths, hdirs, hpaths⟩ := mapM_expect h
  refine ⟨paths, hdirs, ?_⟩
  unfold up
  rw [hnodes]
  rw [hnodes] at hpaths
  simp only [hpaths, pure_bind]

/-- The entries from number `i` on have no child: entry `i`, and the others. -/
theorem ahead_iff {nodes : List NodeState} {i : Nat} {n : NodeState} (hn : nodes[i]? = some n)
    (n' : NodeState) :
    (∀ j node, i ≤ j → nodes[j]? = some node → node.child = none) ↔ n.child = none ∧
      ∀ j node, i + 1 ≤ j → (nodes.set i n')[j]? = some node → node.child = none := by
  constructor
  · refine fun hall => ⟨hall i n le_rfl hn, fun j node hj hj' => ?_⟩
    rw [List.getElem?_set_ne (by omega)] at hj'
    exact hall j node (by omega) hj'
  · rintro ⟨h₀, hall⟩ j node hj hj'
    rcases Nat.eq_or_lt_of_le hj with rfl | hlt
    · rw [hn] at hj'
      rwa [← Option.some.inj hj']
    · exact hall j node hlt (by rwa [List.getElem?_set_ne (by omega)])

/-- **The loop of `up`** keeps `Kept` when the entries ahead have no child, and there are
configurations for them and all the calls succeed; or nothing runs and the first round fails. -/
theorem upAll_spec (tempdir : Path) (nodeConfigs : List ScyllaNodeConfig) (seedIp : Ipv4Addr)
    (paths : List TempDir) (i : Nat) (nodes : List NodeState) (w : Machine RunNode)
    (hlen : i + paths.length = nodes.length) (h : Inv ⟨tempdir, nodes⟩ w) :
    (∀ nodes' w', upAll nodeConfigs seedIp paths i nodes w = (some nodes', w') →
      Inv ⟨tempdir, nodes'⟩ w') ∧
    (Kept NodeState.child (upAll nodeConfigs seedIp paths i nodes w).1
        (upAll nodeConfigs seedIp paths i nodes w).2 ↔
      Held (nodes.map NodeState.child) w ∧
        (∀ j node, i ≤ j → nodes[j]? = some node → node.child = none) ∧
        (paths.length ≤ nodeConfigs.length - i ∧ w.Succeeds paths.length ∨
          w.running = ∅ ∧ (nodeConfigs.length ≤ i ∨ w.succeeds w.calls = false))) := by
  induction paths generalizing i nodes w with
  | nil =>
    refine ⟨fun _ _ hs => ?_, ?_⟩
    · cases hs
      exact h
    · refine (and_iff_left ⟨fun j node hj hn => ?_, Or.inl ⟨Nat.zero_le _, w.succeeds_zero⟩⟩).symm
      obtain ⟨hlt, -⟩ := List.getElem?_eq_some_iff.mp hn
      simp only [List.length_nil] at hlen
      omega
  | cons path paths ih =>
    have hi : i < nodes.length := by
      rw [List.length_cons] at hlen
      omega
    have hn : nodes[i]? = some nodes[i] := List.getElem?_eq_getElem hi
    have hidle_none : w.running = ∅ → ∀ j node, i ≤ j → nodes[j]? = some node →
        node.child = none :=
      fun hidle j node _ hj => h.sound.child_none hidle (List.mem_of_getElem? hj)
    cases hc : nodeConfigs[i]? with
    | none =>
      have hge : nodeConfigs.length ≤ i := List.getElem?_eq_none_iff.mp hc
      unfold upAll
      rw [Code.bind_none (upRound_end hc)]
      refine ⟨nofun, ?_⟩
      change w.running = ∅ ↔ _
      constructor
      · exact fun hidle => ⟨Held.of_idle hidle, hidle_none hidle, Or.inr ⟨hidle, Or.inl hge⟩⟩
      · rintro ⟨-, -, ⟨hle, -⟩ | ⟨hidle, -⟩⟩
        · rw [List.length_cons] at hle
          omega
        · exact hidle
    | some nodeConfig =>
      have hlt : i < nodeConfigs.length := (List.getElem?_eq_some_iff.mp hc).1
      cases hs : w.succeeds w.calls with
      | false =>
        unfold upAll
        rw [Code.bind_none (upRound_none hc hn hs)]
        refine ⟨nofun, ?_⟩
        change w.running = ∅ ↔ _
        constructor
        · exact fun hidle => ⟨Held.of_idle hidle, hidle_none hidle, Or.inr ⟨hidle, Or.inr rfl⟩⟩
        · rintro ⟨-, -, ⟨-, hall⟩ | ⟨hidle, -⟩⟩
          · have := hall 0 (Nat.succ_pos _)
            rw [Nat.add_zero, hs] at this
            cases this
          · exact hidle
      | true =>
        obtain ⟨hinv, hheld⟩ := h.runAgain hn ⟨nodeConfig, seedIp, path, rackName i⟩
        have hlen' : i + 1 + paths.length =
            (nodes.set i { nodes[i] with child := some w.next }).length := by
          rw [List.length_set, ← hlen, List.length_cons]
          omega
        obtain ⟨hsome, hkept⟩ := ih (i + 1) _ _ hlen' hinv
        unfold upAll
        rw [Code.bind_some (upRound_some hc hn hs)]
        refine ⟨hsome, hkept.trans ?_⟩
        rw [hheld, ahead_iff hn { nodes[i] with child := some w.next }, List.length_cons,
          ← Machine.succeeds_spawned hs]
        simp only [Machine.spawned_running, Finset.insert_ne_empty, false_and, or_false, and_assoc]
        have hle : paths.length ≤ nodeConfigs.length - (i + 1) ↔
            paths.length + 1 ≤ nodeConfigs.length - i := by omega
        simp [hle, Nat.not_le_of_lt hlt]

theorem up_spec (nodeConfigs : List ScyllaNodeConfig) (h : Inv state w) :
    (∀ state' w', up nodeConfigs state w = (some state', w') → Inv state' w') ∧
    (Owned (up nodeConfigs state w).1 (up nodeConfigs state w).2 ↔
      Held state.children w ∧ (∀ node ∈ state.nodes, node.child = none) ∧
        (state.nodes.length ≤ nodeConfigs.length ∧ w.Succeeds state.nodes.length ∨
          w.running = ∅ ∧ (nodeConfigs = [] ∨ w.succeeds w.calls = false))) := by
  cases hnodes : state.nodes with
  | nil =>
    unfold up
    rw [hnodes]
    refine ⟨fun _ _ hs => ?_, ?_⟩
    · cases hs
      exact h
    · refine (and_iff_left ⟨fun _ hn => absurd hn List.not_mem_nil, Or.inl ⟨Nat.zero_le _, ?_⟩⟩).symm
      exact w.succeeds_zero
  | cons first rest =>
    obtain ⟨paths, hdirs, hup⟩ := up_cons nodeConfigs hnodes h.workdir
    have hlen : paths.length = state.nodes.length := by
      simpa using (congrArg List.length hdirs).symm
    obtain ⟨hsome, hkept⟩ := upAll_spec state.tempdir nodeConfigs first.dbIp paths 0
      state.nodes w (by rw [Nat.zero_add, hlen]) h
    have hiff : (∀ j node, 0 ≤ j → state.nodes[j]? = some node → node.child = none) ↔
        ∀ node ∈ state.nodes, node.child = none := by
      constructor
      · intro hall node hn
        obtain ⟨j, hj⟩ := List.mem_iff_getElem?.mp hn
        exact hall j node (Nat.zero_le j) hj
      · exact fun hall j node _ hj => hall node (List.mem_of_getElem? hj)
    rw [hiff, hlen, Nat.sub_zero, Nat.le_zero, List.length_eq_zero_iff, hnodes] at hkept
    rw [hup, hnodes]
    rcases hr : upAll nodeConfigs first.dbIp paths 0 (first :: rest) w with ⟨_ | nodes, w₁⟩
    · rw [Code.bind_none hr]
      rw [hr] at hkept
      exact ⟨nofun, by rw [State.children, hnodes]; exact hkept⟩
    · rw [Code.bind_some hr]
      rw [hr] at hkept
      refine ⟨fun _ _ hs => ?_, by rw [State.children, hnodes]; exact hkept⟩
      cases hs
      exact hsome nodes w₁ (by rw [hnodes]; exact hr)

end Operations

/-! ## Messages -/

/-- **When a message keeps every process owned**: `Up` finds no entry with a child, and `UpNode` none
in the entry it is about; and nothing panics or waits for ever while a process runs. -/
def Safe : ScyllaCluster → State → Machine RunNode → Prop
  | .version tx, _, w => tx = true ∨ w.running = ∅
  | .start nodeConfigs, _, w =>
    w.Succeeds nodeConfigs.length ∨ w.running = ∅ ∧ w.succeeds w.calls = false
  | .stop _, _, _ | .down _, _, _ => True
  | .waitForReady tx, state, w => w.Succeeds state.nodes.length ∧
    (∀ node ∈ state.nodes, isUp node.dbIp w = true) ∧ tx = true ∨ w.running = ∅
  | .flush tx, state, w => w.Succeeds state.nodes.length ∧ tx = true ∨ w.running = ∅
  | .up nodeConfigs, state, w => (∀ node ∈ state.nodes, node.child = none) ∧
    (state.nodes.length ≤ nodeConfigs.length ∧ w.Succeeds state.nodes.length ∨
      w.running = ∅ ∧ (nodeConfigs = [] ∨ w.succeeds w.calls = false))
  | .upNode nodeConfig, state, w => ∀ node i, state.find nodeConfig.dbIp = some (node, i) →
    node.child = none ∧ (w.succeeds w.calls = true ∨ w.running = ∅)
  | .downNode dbIp tx, state, w => tx = true ∨ ∀ p ∈ w.running, ∃ node i,
    state.find dbIp = some (node, i) ∧ node.child = some p

section Step

variable {state state' : State} {w w' : Machine RunNode}

/-- A message that calls `nodetool` for every node, and answers. -/
theorem calls_ensure (tx : Bool) (state : State) (w : Machine RunNode) : ∃ b n, (do
      forM state.nodes fun _ => call
      Code.ensure tx
      return state : Code _ State) w = (if b then some state else none, { w with calls := n }) ∧
    (b = true ↔ w.Succeeds state.nodes.length ∧ tx = true) := by
  obtain ⟨n, hn⟩ := forM_call state.nodes w
  by_cases hs : w.Succeeds state.nodes.length
  · rw [if_pos hs] at hn
    exact ⟨tx, n, by rw [Code.bind_some hn, Code.ensure_return], by simp [hs]⟩
  · rw [if_neg hs] at hn
    exact ⟨false, n, Code.bind_none hn, by simp [hs]⟩

/-- **`wait_for_ready`** answers when every node is up, and otherwise waits for ever, unless a call
fails before. -/
theorem waitForReady_spec (state : State) (w : Machine RunNode) : ∃ n k,
    waitForReady state w =
      (if w.Succeeds state.nodes.length ∧ ∀ node ∈ state.nodes, isUp node.dbIp w = true then
        some !state.nodes.isEmpty else none, { w with calls := n, stuck := k }) ∧
      (w.Succeeds state.nodes.length →
        (k = true ↔ w.stuck = true ∨ ∃ node ∈ state.nodes, isUp node.dbIp w = false)) := by
  obtain ⟨n, k, hn, hk⟩ := forM_waitUntil (fun node : NodeState => isUp node.dbIp) (fun _ _ => rfl)
    state.nodes w
  refine ⟨n, k, ?_, hk⟩
  unfold waitForReady waitForNode
  by_cases hup : w.Succeeds state.nodes.length ∧ ∀ node ∈ state.nodes, isUp node.dbIp w = true
  · rw [if_pos hup] at hn ⊢
    rw [Code.bind_some hn]
    rfl
  · rw [if_neg hup] at hn ⊢
    rw [Code.bind_none hn]

/-- `wait_for_ready` and its answer change no entry and no process. -/
theorem process_waitForReady (tx : Bool) (state : State) (w : Machine RunNode) : ∃ b n k,
    process (.waitForReady tx) state w =
      (if b then some state else none, { w with calls := n, stuck := k }) ∧
      (b = true ↔ w.Succeeds state.nodes.length ∧
        (∀ node ∈ state.nodes, isUp node.dbIp w = true) ∧ tx = true) := by
  obtain ⟨n, k, hn, -⟩ := waitForReady_spec state w
  by_cases hup : w.Succeeds state.nodes.length ∧ ∀ node ∈ state.nodes, isUp node.dbIp w = true
  · rw [if_pos hup] at hn
    exact ⟨tx, n, k, by rw [process, Code.bind_some hn, Code.ensure_return],
      fun htx => ⟨hup.1, hup.2, htx⟩, fun h => h.2.2⟩
  · rw [if_neg hup] at hn
    exact ⟨false, n, k, Code.bind_none hn, nofun, fun h => absurd ⟨h.1, h.2.1⟩ hup⟩

/-- A message that changes no entry and no process. -/
theorem owned_unchanged {b : Bool} (hP : Held state.children w) (hr : w'.running = w.running) :
    Owned (if b then some state else none) w' ↔ b = true ∨ w.running = ∅ := by
  rw [← kept_unchanged (b := b) hP hr, Owned]
  cases b <;> rfl

/-- What `stop` and `down` leave is idle, so that it does not matter whether the answer is read. -/
theorem owned_idle {nodes : List NodeState} {tx : Bool} (h : Inv state w)
    (hP : Held state.children w) :
    Owned (if tx then some { state with nodes } else none) (w.without state.children) := by
  have hidle := h.sound.without_idle.mpr hP
  cases tx with
  | true => exact Held.of_idle hidle
  | false => exact hidle

theorem Inv.unchanged (h : Inv state w) (hr : w'.running = w.running) (hn : w'.next = w.next) :
    Inv state w' := ⟨h.sound.congr hr hn, h.workdir⟩

theorem Inv.without (h : Inv state w) {nodes : List NodeState}
    (hc : ∀ node ∈ nodes, node.child = none ∧ node.workdir.isSome) :
    Inv { state with nodes } (w.without state.children) := by
  refine ⟨?_, fun node hn => (hc node hn).2⟩
  have hnone : nodes.map NodeState.child = List.replicate nodes.length none :=
    List.eq_replicate_iff.mpr ⟨List.length_map _, fun child hchild => by
      obtain ⟨node, hn, rfl⟩ := List.mem_map.mp hchild
      exact (hc node hn).1⟩
  unfold State.children
  rw [hnone]
  exact h.sound.without _

theorem Inv.process {m : ScyllaCluster} (h : Inv state w)
    (hp : process m state w = (some state', w')) : Inv state' w' := by
  cases m with
  | version tx =>
    unfold scylla_cluster.process at hp
    rw [Code.ensure_return_eq_some] at hp
    obtain ⟨-, rfl, rfl⟩ := hp
    exact h
  | start nodeConfigs => exact (start_spec nodeConfigs h).1 _ _ hp
  | waitForReady tx =>
    obtain ⟨b, n, k, hcalls, -⟩ := process_waitForReady tx state w
    rw [hcalls, Code.answered_iff] at hp
    obtain ⟨-, rfl, rfl⟩ := hp
    exact h.unchanged rfl rfl
  | stop tx =>
    rw [scylla_cluster.process, Code.bind_some (stop_spec h), Code.ensure_return_eq_some] at hp
    obtain ⟨-, rfl, rfl⟩ := hp
    exact h.without fun _ hn => absurd hn List.not_mem_nil
  | up nodeConfigs => exact (up_spec nodeConfigs h).1 _ _ hp
  | upNode nodeConfig => exact (upNode_spec nodeConfig h).1 _ _ hp
  | down tx =>
    rw [scylla_cluster.process, Code.bind_some (down_spec h), Code.ensure_return_eq_some] at hp
    obtain ⟨-, rfl, rfl⟩ := hp
    refine h.without fun node hn => ?_
    obtain ⟨node', hn', rfl⟩ := List.mem_map.mp hn
    exact ⟨rfl, h.workdir node' hn'⟩
  | downNode dbIp tx =>
    obtain ⟨state₁, w₁, hd, hinv, -⟩ := downNode_spec dbIp h
    rw [scylla_cluster.process, Code.bind_some hd, Code.ensure_return_eq_some] at hp
    obtain ⟨-, rfl, rfl⟩ := hp
    exact hinv
  | flush tx =>
    obtain ⟨b, n, hcalls, -⟩ := calls_ensure tx state w
    rw [scylla_cluster.process, flush, hcalls, Code.answered_iff] at hp
    obtain ⟨-, rfl, rfl⟩ := hp
    exact h.unchanged rfl rfl

/-- **The condition of one message.** -/
theorem owned_process_iff (m : ScyllaCluster) (h : Inv state w) (hP : Owned (some state) w) :
    Owned (process m state w).1 (process m state w).2 ↔ Safe m state w := by
  have hheld : Held state.children w := hP
  cases m with
  | version tx =>
    rw [process, Code.ensure_return]
    exact owned_unchanged hheld rfl
  | start nodeConfigs => exact ((start_spec nodeConfigs h).2).trans (and_iff_right hheld)
  | waitForReady tx =>
    obtain ⟨b, n, k, hcalls, hb⟩ := process_waitForReady tx state w
    rw [hcalls, Safe, ← hb]
    exact owned_unchanged hheld rfl
  | stop tx =>
    rw [process, Code.bind_some (stop_spec h), Code.ensure_return]
    exact iff_of_true (owned_idle h hheld) trivial
  | up nodeConfigs => exact ((up_spec nodeConfigs h).2).trans (and_iff_right hheld)
  | upNode nodeConfig => exact ((upNode_spec nodeConfig h).2).trans (and_iff_right hheld)
  | down tx =>
    rw [process, Code.bind_some (down_spec h), Code.ensure_return]
    exact iff_of_true (owned_idle h hheld) trivial
  | downNode dbIp tx =>
    obtain ⟨state₁, w₁, hd, hinv, hiff, hr⟩ := downNode_spec dbIp h
    rw [process, Code.bind_some hd, Code.ensure_return, Safe, ← kept_killed (hiff.mpr hheld)
      (fun p => (hr p).trans (and_congr_right fun _ => by push Not; rfl)), Owned]
    cases tx <;> rfl
  | flush tx =>
    obtain ⟨b, n, hcalls, hb⟩ := calls_ensure tx state w
    rw [process, flush, hcalls, Safe, ← hb]
    exact owned_unchanged hheld rfl

end Step

/-! ## Runs of the actor -/

/-- No process is orphaned: at every message boundary each process spawned and not killed is the
child of exactly one entry; none runs after a `Stop`, and none when the channel has closed. -/
def NoOrphans (ms : List ScyllaCluster) (tempdir : Path) (succeeds : Nat → Bool) : Prop :=
  Always process Owned ms (State.new tempdir) { succeeds } ∧
    (∀ ns tx, ns ++ [.stop tx] <+: ms →
      (serve process (ns ++ [.stop tx]) (State.new tempdir) { succeeds }).2.running = ∅) ∧
    (actor ms (State.new tempdir) { succeeds }).2.running = ∅

theorem Inv.init (tempdir : Path) (succeeds : Nat → Bool) : Inv (State.new tempdir) { succeeds } :=
  ⟨.init succeeds, fun _ hn => absurd hn List.not_mem_nil⟩

/-- `stop` leaves nothing running. -/
theorem stop_idle {state : State} {w : Machine RunNode} (h : Inv state w)
    (hP : Owned (some state) w) : (stop state w).2.running = ∅ := by
  rw [stop_spec h]
  exact h.sound.without_idle.mpr hP

theorem process_stop_idle (tx : Bool) {state : State} {w : Machine RunNode} (h : Inv state w)
    (hP : Owned (some state) w) : (process (.stop tx) state w).2.running = ∅ := by
  rw [process, Code.bind_some (stop_spec h), Code.ensure_return]
  exact h.sound.without_idle.mpr hP

/-- **No process is orphaned** exactly when every message is safe in the state it finds. -/
theorem orphans_iff (ms : List ScyllaCluster) (tempdir : Path) (succeeds : Nat → Bool) :
    NoOrphans ms tempdir succeeds ↔ Along process Safe ms (State.new tempdir) { succeeds } := by
  exact always_ends_iff_along (I := Inv) (fun _ _ _ _ _ hI hp => hI.process hp)
    (fun m _ _ hI hP => owned_process_iff m hI hP) (fun _ => id)
    (fun tx _ _ => process_stop_idle tx) (fun _ _ => stop_idle) (Inv.init tempdir succeeds)
    (Held.of_idle rfl)

end scylla_cluster

end E2etest
