import E2etest.Services.ScyllaCluster

/-!
# The Vector Store cluster manager (`e2etest-vector-store-cluster`)

The actor keeps an entry for each node, with the handle of its process and the client that asks for
its status.

`clusters_no_orphans_iff` says of both cluster managers when no process is orphaned. `StartNode` starts a
process for an entry whatever the entry holds.
-/

namespace E2etest

open Async Os

/-- `VectorStoreNodeConfig`. -/
structure VectorStoreNodeConfig where
  vsIp : Ipv4Addr
  dbIp : Ipv4Addr
  user : Option Path := none
  password : Option Path := none
  envs : List (Path × Path) := []
  deriving DecidableEq, Repr

/-- `VectorStoreCluster`. The flags `tx` say that the answer is still waited for. -/
inductive VectorStoreCluster
  | version (tx : Bool)
  | start (nodeConfigs : List VectorStoreNodeConfig)
  | startNode (nodeConfig : VectorStoreNodeConfig)
  | stop (tx : Bool)
  | stopNode (vsIp : Ipv4Addr) (tx : Bool)
  | waitForReady (tx : Bool)
  deriving DecidableEq, Repr

namespace vector_store_cluster

/-- `VS_PORT`. -/
def VS_PORT : UInt16 := 6080

/-- `SocketAddr`. -/
abbrev SocketAddr := Ipv4Addr × UInt16

/-- `VectorStoreNodeConfig::vs_addr`. -/
def vsAddr (nodeConfig : VectorStoreNodeConfig) : SocketAddr := (nodeConfig.vsIp, VS_PORT)

/-- `HttpClient`: the address its requests go to. -/
structure HttpClient where
  addr : SocketAddr
  deriving DecidableEq, Repr

/-- What `run_node` is called with. -/
structure RunNode where
  nodeConfig : VectorStoreNodeConfig
  workdir : TempDir
  deriving DecidableEq, Repr

/-- `NodeState`. -/
structure NodeState where
  vsIp : Ipv4Addr
  child : Option Pid
  client : Option HttpClient
  workdir : Option TempDir
  deriving DecidableEq, Repr

/-- `State`, less what only `run_node` reads. -/
structure State where
  tmpdir : Path
  nodes : List NodeState
  deriving DecidableEq, Repr

/-- `State::new`. -/
def State.new (tmpdir : Path) : State := ⟨tmpdir, []⟩

/-- `run_node`. -/
def runNode (nodeConfig : VectorStoreNodeConfig) (workdir : TempDir) :
    Code (Machine RunNode) Pid := spawn ⟨nodeConfig, workdir⟩

/-- The entry of a node that is run in a new directory. -/
def newNode (newDir : Code (Machine RunNode) TempDir) (nodeConfig : VectorStoreNodeConfig) :
    Code (Machine RunNode) NodeState := do
  let workdir ← newDir
  let child ← runNode nodeConfig workdir
  let client : HttpClient := ⟨vsAddr nodeConfig⟩
  return ⟨nodeConfig.vsIp, some child, some client, some workdir⟩

/-- `start`. -/
def start (nodeConfigs : List VectorStoreNodeConfig) (state : State) :
    Code (Machine RunNode) State :=
  if nodeConfigs.isEmpty then return state
  else do
    let nodes ← pushAll (newNode (newTempDir state.tmpdir)) nodeConfigs state.nodes
    return { state with nodes }

/-- The number of the first entry with the address. -/
def State.position (state : State) (vsIp : Ipv4Addr) : Option Nat :=
  state.nodes.findIdx? fun node => node.vsIp = vsIp

/-- `start_node`. -/
def startNode (nodeConfig : VectorStoreNodeConfig) (state : State) :
    Code (Machine RunNode) State :=
  match state.position nodeConfig.vsIp with
  | none => return state
  | some i => do
    let node ← newNode newDefaultTempDir nodeConfig
    return { state with nodes := state.nodes.set i node }

/-- `stop`. -/
def stop (state : State) : Code (Machine RunNode) State := do
  let _ ← state.nodes.mapM fun node => do
    killChild node.child
    return { node with child := none, client := none }
  return { state with nodes := [] }

/-- The first entry with the address, and its number. -/
def State.find (state : State) (vsIp : Ipv4Addr) : Option (NodeState × Nat) :=
  state.nodes.zipIdx.find? fun n => n.1.vsIp = vsIp

/-- `stop_node`. -/
def stopNode (state : State) (vsIp : Ipv4Addr) : Code (Machine RunNode) State :=
  match state.find vsIp with
  | none => return state
  | some (node, i) => do
    killChild node.child
    return { state with nodes := state.nodes.set i { node with child := none, client := none } }

/-- The loop of `wait_for_ready`. Whether a node reports that it serves before `wait_for_node` gives
up is an answer from outside. -/
def waitForNodes : List NodeState → Code (Machine RunNode) Bool
  | [] => return true
  | node :: nodes =>
    match node.client with
    | some _ => do
      let serving ← ask
      Code.ensure serving
      waitForNodes nodes
    | none => return false

/-- `wait_for_ready`. -/
def waitForReady (state : State) : Code (Machine RunNode) Bool :=
  if state.nodes.isEmpty then return false else waitForNodes state.nodes

/-- `process`. -/
def process : VectorStoreCluster → State → Code (Machine RunNode) State
  | .version tx, state => do
    Code.ensure tx
    return state
  | .start nodeConfigs, state => start nodeConfigs state
  | .startNode nodeConfig, state => startNode nodeConfig state
  | .stop tx, state => do
    let state ← stop state
    Code.ensure tx
    return state
  | .stopNode vsIp tx, state => do
    let state ← stopNode state vsIp
    Code.ensure tx
    return state
  | .waitForReady tx, state => do
    let _ ← waitForReady state
    Code.ensure tx
    return state

/-- What the actor does: it processes the messages, and stops the cluster when the channel closes. -/
def actor (ms : List VectorStoreCluster) (state : State) : Code (Machine RunNode) State := do
  let state ← serve process ms state
  stop state

/-! ## What the operations do to the processes -/

/-- The children of the entries. -/
abbrev State.children (state : State) : List (Option Pid) := state.nodes.map NodeState.child

/-- Every process spawned and not killed is the child of exactly one entry; an actor that is gone
has left none. -/
def Owned (state : Option State) (w : Machine RunNode) : Prop :=
  Kept NodeState.child (state.map State.nodes) w

section Operations

variable {state state' : State} {w w' : Machine RunNode}

theorem starts_newNode (newDir : Code (Machine RunNode) TempDir)
    (hdir : ∀ w, ∃ dir n, newDir w = (some dir, w.withTempDirs n))
    (nodeConfig : VectorStoreNodeConfig) :
    Starts NodeState.child (newNode newDir nodeConfig) where
  starts w hs := by
    obtain ⟨dir, n, hd⟩ := hdir w
    have hrun : runNode nodeConfig dir (w.withTempDirs n) = (some w.next, _) := spawn_some hs
    unfold newNode
    rw [Code.bind_some hd, Code.bind_some hrun]
    exact ⟨_, _, n, rfl, rfl⟩
  panics w hs := by
    obtain ⟨dir, n, hd⟩ := hdir w
    have hrun : runNode nodeConfig dir (w.withTempDirs n) = (none, _) := spawn_none hs
    unfold newNode
    rw [Code.bind_some hd, Code.bind_none hrun]
    exact ⟨_, rfl, rfl⟩

theorem start_spec (nodeConfigs : List VectorStoreNodeConfig) (h : Sound state.children w) :
    (∀ state' w', start nodeConfigs state w = (some state', w') → Sound state'.children w') ∧
    (Owned (start nodeConfigs state w).1 (start nodeConfigs state w).2 ↔ Held state.children w ∧
      (w.Succeeds nodeConfigs.length ∨ w.running = ∅ ∧ w.succeeds w.calls = false)) := by
  cases nodeConfigs with
  | nil =>
    refine ⟨fun _ _ hs => ?_, (and_iff_left (Or.inl w.succeeds_zero)).symm⟩
    cases hs
    exact h
  | cons first rest =>
    have hmake : ∀ c ∈ first :: rest, Starts NodeState.child
        (newNode (newTempDir state.tmpdir) c) :=
      fun c _ => starts_newNode _ (fun w => ⟨_, _, rfl⟩) c
    have hkept := kept_pushAll hmake h
    rw [← hkept]
    have hstart : start (first :: rest) state = (do
        let nodes ← pushAll (newNode (newTempDir state.tmpdir)) (first :: rest) state.nodes
        return { state with nodes }) := rfl
    rcases hp : pushAll (newNode (newTempDir state.tmpdir)) (first :: rest) state.nodes w
      with ⟨_ | nodes, w₁⟩
    · rw [hstart, Code.bind_none hp]
      exact ⟨nofun, Iff.rfl⟩
    · rw [hstart, Code.bind_some hp]
      refine ⟨fun _ _ hs => ?_, Iff.rfl⟩
      cases hs
      exact Sound.pushAll hmake h hp

theorem stop_spec (h : Sound state.children w) :
    stop state w = (some { state with nodes := [] }, w.without state.children) := by
  unfold stop
  rw [mapM_killChild NodeState.child, bind_assoc, Code.bind_some h.killAll]
  rfl

theorem startNode_none {nodeConfig : VectorStoreNodeConfig}
    (h : state.position nodeConfig.vsIp = none) : startNode nodeConfig state = pure state := by
  unfold startNode
  rw [h]

theorem startNode_some {nodeConfig : VectorStoreNodeConfig} {i : Nat}
    (h : state.position nodeConfig.vsIp = some i) : startNode nodeConfig state = (do
      let node ← newNode newDefaultTempDir nodeConfig
      return { state with nodes := state.nodes.set i node }) := by
  unfold startNode
  rw [h]

theorem starts_newNode_default (nodeConfig : VectorStoreNodeConfig) :
    Starts NodeState.child (newNode newDefaultTempDir nodeConfig) :=
  starts_newNode newDefaultTempDir (fun _ => ⟨_, _, rfl⟩) nodeConfig

theorem startNode_spec (nodeConfig : VectorStoreNodeConfig) (h : Sound state.children w) :
    (∀ state' w', startNode nodeConfig state w = (some state', w') → Sound state'.children w') ∧
    (Owned (startNode nodeConfig state w).1 (startNode nodeConfig state w).2 ↔
      Held state.children w ∧ ∀ i node, state.position nodeConfig.vsIp = some i →
        state.nodes[i]? = some node →
          node.child = none ∧ (w.succeeds w.calls = true ∨ w.running = ∅)) := by
  cases hf : state.position nodeConfig.vsIp with
  | none =>
    rw [startNode_none hf]
    refine ⟨fun _ _ hs => ?_, (and_iff_left nofun).symm⟩
    cases hs
    exact h
  | some i =>
    obtain ⟨hlt, -⟩ := List.findIdx?_eq_some_iff_getElem.mp hf
    have hi : state.nodes[i]? = some state.nodes[i] := List.getElem?_eq_getElem hlt
    have hstarts := starts_newNode_default nodeConfig
    rw [startNode_some hf]
    cases hc : w.succeeds w.calls with
    | false =>
      obtain ⟨w₁, hmake, hr⟩ := hstarts.panics w hc
      rw [Code.bind_none hmake]
      refine ⟨nofun, ?_⟩
      change w₁.running = ∅ ↔ _
      rw [hr]
      constructor
      · intro hidle
        refine ⟨Held.of_idle hidle, ?_⟩
        rintro _ node ⟨⟩ hn
        exact ⟨h.child_none hidle (List.mem_of_getElem? hn), Or.inr hidle⟩
      · rintro ⟨-, hall⟩
        exact (hall i _ rfl hi).2.resolve_left Bool.false_ne_true
    | true =>
      obtain ⟨node', c, dirs, hmake, -, hsound, hheld⟩ := hstarts.put h hi hc
      rw [Code.bind_some hmake]
      refine ⟨fun _ _ hs => ?_, hheld.trans (and_congr_right fun _ => ?_)⟩
      · cases hs
        exact hsound
      · constructor
        · rintro hnone _ node ⟨⟩ hn
          rw [hi] at hn
          exact ⟨Option.some.inj hn ▸ hnone, Or.inl rfl⟩
        · exact fun hall => (hall i _ rfl hi).1

theorem find_spec {vsIp : Ipv4Addr} {node : NodeState} {i : Nat}
    (h : state.find vsIp = some (node, i)) : state.nodes[i]? = some node :=
  List.mem_zipIdx_iff_getElem?.mp (List.mem_of_find?_eq_some h)

theorem stopNode_some {vsIp : Ipv4Addr} {node : NodeState} {i : Nat}
    (h : state.find vsIp = some (node, i)) : stopNode state vsIp = (do
      killChild node.child
      let node := { node with child := none, client := none }
      return { state with nodes := state.nodes.set i node }) := by
  unfold stopNode
  rw [h]

theorem stopNode_spec (vsIp : Ipv4Addr) (h : Sound state.children w) : ∃ state' w',
    stopNode state vsIp w = (some state', w') ∧ Sound state'.children w' ∧
      (Held state'.children w' ↔ Held state.children w) ∧
      ∀ p, p ∈ w'.running ↔ p ∈ w.running ∧
        ∀ node i, state.find vsIp = some (node, i) → node.child ≠ some p := by
  rcases hf : state.find vsIp with _ | ⟨node, i⟩
  · unfold stopNode
    rw [hf]
    exact ⟨state, w, rfl, h, Iff.rfl, fun p => (and_iff_left nofun).symm⟩
  · obtain ⟨w', hkill, hsound, hheld, hr⟩ := h.clear (find_spec hf)
      { node with child := none, client := none } rfl
    rw [stopNode_some hf]
    refine ⟨{ state with nodes := _ }, w', Code.bind_some hkill, hsound, hheld, fun p => ?_⟩
    rw [hr]
    refine and_congr_right fun _ => ⟨?_, fun hall => hall node i rfl⟩
    rintro hne _ _ ⟨⟩
    exact hne

/-- The nodes `wait_for_ready` asks: those up to the first one without a client. -/
def asked (nodes : List NodeState) : Nat := (nodes.takeWhile fun node => node.client.isSome).length

theorem waitForNodes_spec (nodes : List NodeState) (w : Machine RunNode) : ∃ n,
    waitForNodes nodes w =
      (if w.Succeeds (asked nodes) then some (nodes.all fun node => node.client.isSome) else none,
        { w with calls := n }) := by
  induction nodes generalizing w with
  | nil => exact ⟨w.calls, by simp [waitForNodes, asked, w.succeeds_zero]⟩
  | cons node nodes ih =>
    cases hc : node.client with
    | none =>
      exact ⟨w.calls, by simp [waitForNodes, asked, hc, w.succeeds_zero]⟩
    | some client =>
      have hasked : asked (node :: nodes) = asked nodes + 1 := by simp [asked, hc]
      have hsucc : w.Succeeds (asked nodes + 1) ↔ w.succeeds w.calls = true ∧
          w.called.Succeeds (asked nodes) := Machine.succeeds_succ rfl rfl
      have hwait : waitForNodes (node :: nodes) w = (do
          Code.ensure (w.succeeds w.calls)
          waitForNodes nodes : Code _ Bool) w.called := by
        rw [waitForNodes, hc]
        rfl
      rw [hwait, hasked]
      cases hs : w.succeeds w.calls with
      | false => exact ⟨w.calls + 1, by simp [hsucc, hs, Machine.called]⟩
      | true =>
        obtain ⟨n, hn⟩ := ih w.called
        have hrest : w.Succeeds (asked nodes + 1) ↔ w.called.Succeeds (asked nodes) := by
          simp [hsucc, hs]
        rw [Code.ensure_true, pure_bind, hn, List.all_cons, hc, Option.isSome_some, Bool.true_and]
        simp only [hrest]
        exact ⟨n, rfl⟩

/-- **`wait_for_ready`** answers when the nodes it asks serve in time, and panics otherwise. -/
theorem waitForReady_spec (state : State) (w : Machine RunNode) : ∃ n,
    waitForReady state w =
      (if w.Succeeds (asked state.nodes) then
        some (!state.nodes.isEmpty && state.nodes.all fun node => node.client.isSome) else none,
        { w with calls := n }) := by
  unfold waitForReady
  split
  · rename_i hnil
    refine ⟨w.calls, ?_⟩
    have hzero : asked state.nodes = 0 := by
      rw [List.isEmpty_iff.mp hnil]
      rfl
    rw [hzero, if_pos w.succeeds_zero, hnil]
    rfl
  · rename_i hne
    obtain ⟨n, hn⟩ := waitForNodes_spec state.nodes w
    exact ⟨n, by simp [hn, hne]⟩

/-- `wait_for_ready` and its answer change no entry and no process. -/
theorem process_waitForReady (tx : Bool) (state : State) (w : Machine RunNode) : ∃ b n,
    process (.waitForReady tx) state w = (if b then some state else none, { w with calls := n }) ∧
      (b = true ↔ w.Succeeds (asked state.nodes) ∧ tx = true) := by
  obtain ⟨n, hn⟩ := waitForReady_spec state w
  by_cases hs : w.Succeeds (asked state.nodes)
  · rw [if_pos hs] at hn
    exact ⟨tx, n, by rw [process, Code.bind_some hn, Code.ensure_return], by simp [hs]⟩
  · rw [if_neg hs] at hn
    exact ⟨false, n, Code.bind_none hn, by simp [hs]⟩

end Operations

/-! ## Messages -/

/-- **When a message keeps every process owned**: `StartNode` finds no child in the entry it is
about; and nothing panics while a process runs. -/
def Safe : VectorStoreCluster → State → Machine RunNode → Prop
  | .version tx, _, w => tx = true ∨ w.running = ∅
  | .start nodeConfigs, _, w =>
    w.Succeeds nodeConfigs.length ∨ w.running = ∅ ∧ w.succeeds w.calls = false
  | .startNode nodeConfig, state, w => ∀ i node, state.position nodeConfig.vsIp = some i →
    state.nodes[i]? = some node →
      node.child = none ∧ (w.succeeds w.calls = true ∨ w.running = ∅)
  | .stop _, _, _ => True
  | .stopNode vsIp tx, state, w => tx = true ∨ ∀ p ∈ w.running, ∃ node i,
    state.find vsIp = some (node, i) ∧ node.child = some p
  | .waitForReady tx, state, w =>
    w.Succeeds (asked state.nodes) ∧ tx = true ∨ w.running = ∅

section Step

variable {state state' : State} {w w' : Machine RunNode}

/-- A message that changes no entry and no process. -/
theorem owned_unchanged {b : Bool} (hP : Held state.children w) (hr : w'.running = w.running) :
    Owned (if b then some state else none) w' ↔ b = true ∨ w.running = ∅ := by
  rw [← kept_unchanged (b := b) hP hr, Owned]
  cases b <;> rfl

theorem sound_process (m : VectorStoreCluster) (h : Sound state.children w)
    (hp : process m state w = (some state', w')) : Sound state'.children w' := by
  cases m with
  | version tx =>
    unfold process at hp
    rw [Code.ensure_return_eq_some] at hp
    obtain ⟨-, rfl, rfl⟩ := hp
    exact h
  | start nodeConfigs => exact (start_spec nodeConfigs h).1 _ _ hp
  | startNode nodeConfig => exact (startNode_spec nodeConfig h).1 _ _ hp
  | stop tx =>
    rw [process, Code.bind_some (stop_spec h), Code.ensure_return_eq_some] at hp
    obtain ⟨-, rfl, rfl⟩ := hp
    exact h.without 0
  | stopNode vsIp tx =>
    obtain ⟨state₁, w₁, hd, hsound, -⟩ := stopNode_spec vsIp h
    rw [process, Code.bind_some hd, Code.ensure_return_eq_some] at hp
    obtain ⟨-, rfl, rfl⟩ := hp
    exact hsound
  | waitForReady tx =>
    obtain ⟨b, n, hcalls, -⟩ := process_waitForReady tx state w
    rw [hcalls, Code.answered_iff] at hp
    obtain ⟨-, rfl, rfl⟩ := hp
    exact h.congr rfl rfl

/-- What `stop` leaves is idle, so that it does not matter whether the answer is read. -/
theorem process_stop_idle (tx : Bool) (h : Sound state.children w) (hP : Owned (some state) w) :
    Owned (process (.stop tx) state w).1 (process (.stop tx) state w).2 ∧
      (process (.stop tx) state w).2.running = ∅ := by
  have hidle := h.without_idle.mpr hP
  rw [process, Code.bind_some (stop_spec h), Code.ensure_return]
  cases tx with
  | true => exact ⟨Held.of_idle hidle, hidle⟩
  | false => exact ⟨hidle, hidle⟩

/-- **The condition of one message.** -/
theorem owned_process_iff (m : VectorStoreCluster) (h : Sound state.children w)
    (hP : Owned (some state) w) :
    Owned (process m state w).1 (process m state w).2 ↔ Safe m state w := by
  have hheld : Held state.children w := hP
  cases m with
  | version tx =>
    rw [process, Code.ensure_return]
    exact owned_unchanged hheld rfl
  | start nodeConfigs => exact ((start_spec nodeConfigs h).2).trans (and_iff_right hheld)
  | startNode nodeConfig => exact ((startNode_spec nodeConfig h).2).trans (and_iff_right hheld)
  | stop tx => exact iff_of_true (process_stop_idle tx h hP).1 trivial
  | stopNode vsIp tx =>
    obtain ⟨state₁, w₁, hd, hsound, hiff, hr⟩ := stopNode_spec vsIp h
    rw [process, Code.bind_some hd, Code.ensure_return, Safe, ← kept_killed (hiff.mpr hheld)
      (fun p => (hr p).trans (and_congr_right fun _ => by push Not; rfl)), Owned]
    cases tx <;> rfl
  | waitForReady tx =>
    obtain ⟨b, n, hcalls, hb⟩ := process_waitForReady tx state w
    rw [hcalls, Safe, ← hb]
    exact owned_unchanged hheld rfl

end Step

/-! ## Runs of the actor -/

/-- No process is orphaned: at every message boundary each process spawned and not killed is the
child of exactly one entry; none runs after a `Stop`, and none when the channel has closed. -/
def NoOrphans (ms : List VectorStoreCluster) (tmpdir : Path) (succeeds : Nat → Bool) : Prop :=
  Always process Owned ms (State.new tmpdir) { succeeds } ∧
    (∀ ns tx, ns ++ [.stop tx] <+: ms →
      (serve process (ns ++ [.stop tx]) (State.new tmpdir) { succeeds }).2.running = ∅) ∧
    (actor ms (State.new tmpdir) { succeeds }).2.running = ∅

theorem stop_idle {state : State} {w : Machine RunNode} (h : Sound state.children w)
    (hP : Owned (some state) w) : (stop state w).2.running = ∅ := by
  rw [stop_spec h]
  exact h.without_idle.mpr hP

/-- **No process is orphaned** exactly when every message is safe in the state it finds. -/
theorem orphans_iff (ms : List VectorStoreCluster) (tmpdir : Path) (succeeds : Nat → Bool) :
    NoOrphans ms tmpdir succeeds ↔ Along process Safe ms (State.new tmpdir) { succeeds } := by
  exact always_ends_iff_along (I := fun s => Sound s.children)
    (fun m _ _ _ _ hI hp => sound_process m hI hp) (fun m _ _ hI hP => owned_process_iff m hI hP)
    (fun _ => id) (fun tx _ _ hI hP => (process_stop_idle tx hI hP).2) (fun _ _ => stop_idle)
    (.init succeeds) (Held.of_idle rfl)

end vector_store_cluster

/-! ## Both managers -/

/-- **No process is orphaned in the cluster managers** exactly when every message is safe in the
state it finds. -/
theorem clusters_no_orphans_iff (tempdir : Path) (succeeds : Nat → Bool) :
    (∀ ms, scylla_cluster.NoOrphans ms tempdir succeeds ↔
      Along scylla_cluster.process scylla_cluster.Safe ms (.new tempdir) { succeeds }) ∧
    ∀ ms, vector_store_cluster.NoOrphans ms tempdir succeeds ↔
      Along vector_store_cluster.process vector_store_cluster.Safe ms (.new tempdir)
        { succeeds } :=
  ⟨fun ms => scylla_cluster.orphans_iff ms tempdir succeeds,
    fun ms => vector_store_cluster.orphans_iff ms tempdir succeeds⟩

/-- **`Up` orphans the running node** of a cluster in which one of two nodes was taken down, and
`StartNode` the process of a node that runs. -/
theorem clusters_orphan : ¬ scylla_cluster.NoOrphans
      [.start [{ dbIp := 1 }, { dbIp := 2 }], .downNode 1 true,
        .up [{ dbIp := 1 }, { dbIp := 2 }]] "/tmp".toList (fun _ => true) ∧
    ¬ vector_store_cluster.NoOrphans
      [.start [{ vsIp := 1, dbIp := 2 }], .startNode { vsIp := 1, dbIp := 2 }] "/tmp".toList
        fun _ => true := by
  constructor
  · rintro ⟨-, -, h⟩
    exact absurd h (by decide)
  · rintro ⟨-, -, h⟩
    exact absurd h (by decide)

end E2etest
