import E2etest.Services.VectorStoreCluster
import Mathlib.Data.List.TakeWhile

/-!
# The entries of the Vector Store manager

* `nodes_consistent_iff`: when every entry has a child exactly when it has a client, a client for its
  own address, and a directory in `tmpdir`. `start_node` makes the directory where `tempdir` does,
  which is the directory for temporary files and not `tmpdir`.
* `readiness_replied_iff`: when each `WaitForReady` of a run is answered, with nothing changed, and
  the actor goes on, so that a later `Stop` kills every process. A node that does not serve in time
  fails the `assert!` of `wait_for_ready`, and the actor is gone.
-/

namespace E2etest

open Async Os

namespace vector_store_cluster

/-! ## What an entry looks like -/

/-- The child and the client come and go together, the client is for the address of the entry, and
the directory was created in `tmpdir`. Directories are compared as they are written: `/tmp/` is not
`/tmp` here. -/
structure NodeState.Consistent (tmpdir : Path) (node : NodeState) : Prop where
  child_client : node.child.isSome = node.client.isSome
  addr : ∀ client, node.client = some client → client.addr = (node.vsIp, VS_PORT)
  workdir : ∃ dir, node.workdir = some dir ∧ dir.parent = tmpdir

/-- Every entry is consistent, and `tmpdir` is what it was configured to be; an actor that is gone
has no entries. -/
def Consistent (tmpdir : Path) : Option State → Machine RunNode → Prop
  | some state, _ => state.tmpdir = tmpdir ∧ ∀ node ∈ state.nodes, node.Consistent tmpdir
  | none, _ => True

/-- `StartNode` finds no entry, or fails to start the process, or temporary files go to `tmpdir`,
written in the same way. -/
def InPlace : VectorStoreCluster → State → Machine RunNode → Prop
  | .startNode nodeConfig, state, w =>
    state.position nodeConfig.vsIp = none ∨ w.succeeds w.calls = false ∨ w.tempDir = state.tmpdir
  | _, _, _ => True

section Entries

variable {tmpdir : Path} {state state' : State} {w w' : Machine RunNode}

/-- The entry of a node that was run. -/
theorem newNode_eq_some {newDir : Code (Machine RunNode) TempDir}
    {nodeConfig : VectorStoreNodeConfig} {node : NodeState}
    (h : newNode newDir nodeConfig w = (some node, w')) : ∃ dir w₁ child,
      newDir w = (some dir, w₁) ∧ node = ⟨nodeConfig.vsIp, some child, some ⟨vsAddr nodeConfig⟩,
        some dir⟩ := by
  obtain ⟨dir, w₁, hdir, h⟩ := Code.bind_eq_some.mp h
  obtain ⟨child, w₂, -, h⟩ := Code.bind_eq_some.mp h
  cases h
  exact ⟨dir, w₁, child, hdir, rfl⟩

/-- An entry is consistent as soon as its directory is in `tmpdir`. -/
theorem newNode_consistent_iff {nodeConfig : VectorStoreNodeConfig} {dir : TempDir} {child : Pid} :
    NodeState.Consistent tmpdir ⟨nodeConfig.vsIp, some child, some ⟨vsAddr nodeConfig⟩, some dir⟩ ↔
      dir.parent = tmpdir := by
  constructor
  · rintro ⟨-, -, _, ⟨⟩, hdir⟩
    exact hdir
  · intro hdir
    refine ⟨rfl, ?_, dir, rfl, hdir⟩
    rintro client ⟨⟩
    rfl

/-- An entry that is stopped. -/
theorem NodeState.Consistent.stopped {node : NodeState} (h : node.Consistent tmpdir) :
    NodeState.Consistent tmpdir { node with child := none, client := none } :=
  ⟨rfl, nofun, h.workdir⟩

theorem start_consistent {nodeConfigs : List VectorStoreNodeConfig}
    (h : Consistent tmpdir (some state) w) (hs : start nodeConfigs state w = (some state', w')) :
    Consistent tmpdir (some state') w' := by
  obtain ⟨hdir, hnodes⟩ := h
  unfold start at hs
  split at hs
  · cases hs
    exact ⟨hdir, hnodes⟩
  · obtain ⟨nodes, w₁, hpush, hs⟩ := Code.bind_eq_some.mp hs
    cases hs
    refine ⟨hdir, forall_pushAll (fun nodeConfig w node w' hnew => ?_) hnodes hpush⟩
    obtain ⟨dir, w₁, child, hnewDir, rfl⟩ := newNode_eq_some hnew
    cases hnewDir
    exact newNode_consistent_iff.mpr hdir

theorem stop_nodes (hs : stop state w = (some state', w')) : state' = { state with nodes := [] } := by
  obtain ⟨_, _, -, hs⟩ := Code.bind_eq_some.mp hs
  cases hs
  rfl

theorem stopNode_consistent {vsIp : Ipv4Addr} (h : Consistent tmpdir (some state) w)
    (hs : stopNode state vsIp w = (some state', w')) : Consistent tmpdir (some state') w' := by
  obtain ⟨hdir, hnodes⟩ := h
  rcases hf : state.find vsIp with _ | ⟨node, i⟩
  · unfold stopNode at hs
    rw [hf] at hs
    cases hs
    exact ⟨hdir, hnodes⟩
  · rw [stopNode_some hf] at hs
    obtain ⟨_, _, -, hs⟩ := Code.bind_eq_some.mp hs
    cases hs
    refine ⟨hdir, fun n hn => ?_⟩
    rcases List.mem_or_eq_of_mem_set hn with hn | rfl
    · exact hnodes n hn
    · exact (hnodes node (List.mem_of_getElem? (find_spec hf))).stopped

/-- **`start_node`** puts an entry in `tmpdir` only where temporary files go there. -/
theorem startNode_consistent_iff (nodeConfig : VectorStoreNodeConfig)
    (h : Consistent tmpdir (some state) w) :
    Consistent tmpdir (startNode nodeConfig state w).1 (startNode nodeConfig state w).2 ↔
      InPlace (.startNode nodeConfig) state w := by
  obtain ⟨hdir, hnodes⟩ := h
  change _ ↔ state.position nodeConfig.vsIp = none ∨ _
  cases hf : state.position nodeConfig.vsIp with
  | none =>
    rw [startNode_none hf]
    exact iff_of_true ⟨hdir, hnodes⟩ (Or.inl rfl)
  | some i =>
    obtain ⟨hlt, -⟩ := List.findIdx?_eq_some_iff_getElem.mp hf
    rw [startNode_some hf, or_iff_right (Option.some_ne_none i)]
    cases hc : w.succeeds w.calls with
    | false =>
      obtain ⟨w₁, hmake, -⟩ := (starts_newNode_default nodeConfig).panics w hc
      rw [Code.bind_none hmake]
      exact iff_of_true trivial (Or.inl rfl)
    | true =>
      obtain ⟨node, _, _, hmake, -⟩ := (starts_newNode_default nodeConfig).starts w hc
      obtain ⟨dir, w₁, child, hnewDir, rfl⟩ := newNode_eq_some hmake
      cases hnewDir
      rw [Code.bind_some hmake, or_iff_right (by decide)]
      constructor
      · rintro ⟨-, hall⟩
        exact (newNode_consistent_iff.mp (hall _ (List.mem_set hlt _))).trans hdir.symm
      · intro hparent
        refine ⟨hdir, fun n hn => ?_⟩
        rcases List.mem_or_eq_of_mem_set hn with hn | rfl
        · exact hnodes n hn
        · exact newNode_consistent_iff.mpr (hparent.trans hdir)

theorem consistent_of_some {r : Option State × Machine RunNode}
    (h : ∀ state w, r = (some state, w) → Consistent tmpdir (some state) w) :
    Consistent tmpdir r.1 r.2 := by
  obtain ⟨_ | state, w⟩ := r
  · trivial
  · exact h state w rfl

/-- **The condition of one message.** -/
theorem consistent_process_iff (m : VectorStoreCluster) (h : Consistent tmpdir (some state) w) :
    Consistent tmpdir (process m state w).1 (process m state w).2 ↔ InPlace m state w := by
  cases m with
  | version tx =>
    refine iff_of_true (consistent_of_some fun state' w' hp => ?_) trivial
    obtain ⟨-, rfl, rfl⟩ := Code.ensure_return_eq_some.mp hp
    exact h
  | start nodeConfigs =>
    exact iff_of_true (consistent_of_some fun state' w' hp => start_consistent h hp) trivial
  | startNode nodeConfig => exact startNode_consistent_iff nodeConfig h
  | stop tx =>
    refine iff_of_true (consistent_of_some fun state' w' hp => ?_) trivial
    obtain ⟨state₁, w₁, hs, hp⟩ := Code.bind_eq_some.mp hp
    obtain ⟨-, rfl, rfl⟩ := Code.ensure_return_eq_some.mp hp
    rw [stop_nodes hs]
    exact ⟨h.1, fun _ hn => absurd hn List.not_mem_nil⟩
  | stopNode vsIp tx =>
    refine iff_of_true (consistent_of_some fun state' w' hp => ?_) trivial
    obtain ⟨state₁, w₁, hs, hp⟩ := Code.bind_eq_some.mp hp
    obtain ⟨-, rfl, rfl⟩ := Code.ensure_return_eq_some.mp hp
    exact stopNode_consistent h hs
  | waitForReady tx =>
    refine iff_of_true (consistent_of_some fun state' w' hp => ?_) trivial
    obtain ⟨_, _, -, hp⟩ := Code.bind_eq_some.mp hp
    obtain ⟨-, rfl, rfl⟩ := Code.ensure_return_eq_some.mp hp
    exact h

end Entries

/-- **The entries are consistent at every message boundary** exactly when every `StartNode` that
starts a process does so where temporary files go to `tmpdir`. -/
theorem nodes_consistent_iff (ms : List VectorStoreCluster) (tmpdir tempDir : Path)
    (succeeds : Nat → Bool) :
    Always process (Consistent tmpdir) ms (State.new tmpdir) { succeeds, tempDir } ↔
      Along process InPlace ms (State.new tmpdir) { succeeds, tempDir } :=
  always_iff_along (I := fun _ _ => True) (fun _ _ _ _ _ _ _ => trivial)
    (fun m _ _ _ hP => consistent_process_iff m hP) trivial
    ⟨rfl, fun _ hn => absurd hn List.not_mem_nil⟩

/-- **`StartNode` leaves `tmpdir`**: the directory is one for temporary files. -/
theorem startNode_leaves_tmpdir : ¬ Always process (Consistent "/data".toList)
    [.start [{ vsIp := 1, dbIp := 2 }], .stopNode 1 true, .startNode { vsIp := 1, dbIp := 2 }]
      (State.new "/data".toList) { succeeds := fun _ => true, tempDir := "/tmp".toList } := by
  intro h
  obtain ⟨-, hnodes⟩ := h _ List.prefix_rfl
  obtain ⟨-, -, dir, hdir, hparent⟩ := hnodes _ List.mem_cons_self
  obtain rfl := Option.some.inj hdir
  exact absurd hparent (by decide)

/-! ## Readiness -/

/-- There are nodes, and each has a client that reports in time that it serves. -/
def Ready (state : State) (w : Machine RunNode) : Prop :=
  state.nodes ≠ [] ∧ (∀ node ∈ state.nodes, node.client.isSome) ∧ w.Succeeds state.nodes.length

instance (state : State) (w : Machine RunNode) : Decidable (Ready state w) :=
  inferInstanceAs (Decidable (_ ∧ _))

/-- What it takes for a message to be handled without a panic: the processes start, the nodes that
are asked serve in time, and the answer is still waited for. -/
def Returns : VectorStoreCluster → State → Machine RunNode → Prop
  | .version tx, _, _ | .stop tx, _, _ | .stopNode _ tx, _, _ => tx = true
  | .start nodeConfigs, _, w => w.Succeeds nodeConfigs.length
  | .startNode nodeConfig, state, w =>
    state.position nodeConfig.vsIp = none ∨ w.succeeds w.calls = true
  | .waitForReady tx, state, w => w.Succeeds (asked state.nodes) ∧ tx = true

/-- `StartNode` finds no child in the entry it is about. -/
def Vacant : VectorStoreCluster → State → Machine RunNode → Prop
  | .startNode nodeConfig, state, _ => ∀ i node, state.position nodeConfig.vsIp = some i →
    state.nodes[i]? = some node → node.child = none
  | _, _, _ => True

/-- Readiness is a reply: each `WaitForReady` is taken up and answered by whether the nodes are
ready, and changes no entry and no process; every message after it is taken up; and after every
`Stop` that follows no process runs. -/
structure Replied (ms : List VectorStoreCluster) (state₀ : State) (w₀ : Machine RunNode) :
    Prop where
  answered : ∀ ns tx, ns ++ [.waitForReady tx] <+: ms → ∃ state w n,
    serve process ns state₀ w₀ = (some state, w) ∧ tx = true ∧
      waitForReady state w = (some (decide (Ready state w)), { w with calls := n }) ∧
      process (.waitForReady tx) state w = (some state, { w with calls := n })
  reached : ∀ ns m, ns ++ [m] <+: ms → (∃ tx, .waitForReady tx ∈ ns) →
    (serve process ns state₀ w₀).1.isSome
  stopped : ∀ ns tx, ns ++ [.stop tx] <+: ms → (∃ tx, .waitForReady tx ∈ ns) →
    (serve process (ns ++ [.stop tx]) state₀ w₀).2.running = ∅

/-- Where there is a `WaitForReady`, no message panics, but for the last one if it is another; and no
`StartNode` before a `Stop` that follows one takes the place of a child. -/
structure Orderly (ms : List VectorStoreCluster) (state₀ : State) (w₀ : Machine RunNode) :
    Prop where
  returns : (∃ tx, .waitForReady tx ∈ ms) → ∀ ns, ns <+: ms →
    (ns = ms → ∃ us tx, ns = us ++ [.waitForReady tx]) → Along process Returns ns state₀ w₀
  vacant : ∀ ns tx, ns ++ [.stop tx] <+: ms → (∃ tx, .waitForReady tx ∈ ns) →
    Along process Vacant ns state₀ w₀

section Readiness

variable {state state' : State} {w w' : Machine RunNode}

/-- Where all nodes have a client, all are asked. -/
theorem asked_eq {nodes : List NodeState} (h : ∀ node ∈ nodes, node.client.isSome) :
    asked nodes = nodes.length := by
  unfold asked
  rw [List.takeWhile_eq_self_iff.mpr h]

theorem ready_of_serves (h : w.Succeeds (asked state.nodes)) :
    decide (Ready state w) =
      (!state.nodes.isEmpty && state.nodes.all fun node => node.client.isSome) := by
  rw [Bool.eq_iff_iff, decide_eq_true_iff, Bool.and_eq_true, List.all_eq_true, Bool.not_eq_true',
    List.isEmpty_eq_false_iff]
  constructor
  · rintro ⟨hne, hclient, -⟩
    exact ⟨hne, hclient⟩
  · rintro ⟨hne, hclient⟩
    exact ⟨hne, hclient, asked_eq hclient ▸ h⟩

/-- `WaitForReady` where the nodes that are asked serve in time. -/
theorem answered_of_serves {tx : Bool} (h : w.Succeeds (asked state.nodes)) (htx : tx = true) :
    ∃ n, waitForReady state w = (some (decide (Ready state w)), { w with calls := n }) ∧
      process (.waitForReady tx) state w = (some state, { w with calls := n }) := by
  obtain ⟨n, hn⟩ := waitForReady_spec state w
  rw [if_pos h, ← ready_of_serves h] at hn
  subst htx
  exact ⟨n, hn, by rw [process, Code.bind_some hn]; rfl⟩

theorem start_isSome_iff (nodeConfigs : List VectorStoreNodeConfig) :
    (start nodeConfigs state w).1.isSome ↔ w.Succeeds nodeConfigs.length := by
  unfold start
  split
  · rename_i hnil
    rw [List.isEmpty_iff.mp hnil]
    exact iff_of_true rfl w.succeeds_zero
  · have hmake : ∀ c ∈ nodeConfigs, Starts NodeState.child (newNode (newTempDir state.tmpdir) c) :=
      fun c _ => starts_newNode _ (fun w => ⟨_, _, rfl⟩) c
    have hmade : (pushAll (newNode (newTempDir state.tmpdir)) nodeConfigs state.nodes w).1.isSome ↔
        w.Succeeds nodeConfigs.length := pushAll_isSome_iff hmake
    rw [← hmade]
    rcases hp : pushAll (newNode (newTempDir state.tmpdir)) nodeConfigs state.nodes w
      with ⟨_ | nodes, w₁⟩
    · rw [Code.bind_none hp]
      exact Iff.rfl
    · rw [Code.bind_some hp]
      exact Iff.rfl

theorem startNode_isSome_iff (nodeConfig : VectorStoreNodeConfig) :
    (startNode nodeConfig state w).1.isSome ↔
      state.position nodeConfig.vsIp = none ∨ w.succeeds w.calls = true := by
  cases hf : state.position nodeConfig.vsIp with
  | none =>
    rw [startNode_none hf]
    exact iff_of_true rfl (Or.inl rfl)
  | some i =>
    rw [startNode_some hf, or_iff_right (Option.some_ne_none i)]
    cases hc : w.succeeds w.calls with
    | false =>
      obtain ⟨w₁, hmake, -⟩ := (starts_newNode_default nodeConfig).panics w hc
      rw [Code.bind_none hmake]
      exact iff_of_false Bool.false_ne_true Bool.false_ne_true
    | true =>
      obtain ⟨node, _, _, hmake, -⟩ := (starts_newNode_default nodeConfig).starts w hc
      rw [Code.bind_some hmake]
      exact iff_of_true rfl rfl

/-- **What it takes for one message to be handled.** -/
theorem process_isSome_iff (m : VectorStoreCluster) (h : Sound state.children w) :
    (process m state w).1.isSome ↔ Returns m state w := by
  have htx : ∀ (tx : Bool) (state : State), (if tx then some state else none).isSome ↔ tx = true :=
    fun tx state => by cases tx <;> simp
  cases m with
  | version tx =>
    rw [process, Code.ensure_return]
    exact htx tx state
  | start nodeConfigs => exact start_isSome_iff nodeConfigs
  | startNode nodeConfig => exact startNode_isSome_iff nodeConfig
  | stop tx =>
    rw [process, Code.bind_some (stop_spec h), Code.ensure_return]
    exact htx tx _
  | stopNode vsIp tx =>
    obtain ⟨state₁, w₁, hd, -⟩ := stopNode_spec vsIp h
    rw [process, Code.bind_some hd, Code.ensure_return]
    exact htx tx _
  | waitForReady tx =>
    obtain ⟨b, n, hcalls, hb⟩ := process_waitForReady tx state w
    rw [hcalls, Returns, ← hb]
    exact htx b state

/-- **A message that returns** leaves every process in an entry just where each was in one, and no
child was replaced. -/
theorem held_process_iff (m : VectorStoreCluster) (h : Sound state.children w)
    (hp : process m state w = (some state', w')) :
    Held state'.children w' ↔ Held state.children w ∧ Vacant m state w := by
  have hreturns : Returns m state w := (process_isSome_iff m h).mp (by rw [hp]; rfl)
  have howned : Held state'.children w' ↔ Owned (process m state w).1 (process m state w).2 := by
    rw [hp]
    exact Iff.rfl
  cases m with
  | version tx =>
    obtain ⟨-, rfl, rfl⟩ := Code.ensure_return_eq_some.mp hp
    exact (and_iff_left trivial).symm
  | start nodeConfigs =>
    rw [howned]
    refine ((start_spec nodeConfigs h).2).trans (and_congr_right fun _ => ?_)
    exact iff_of_true (Or.inl hreturns) trivial
  | startNode nodeConfig =>
    rw [howned]
    refine ((startNode_spec nodeConfig h).2).trans (and_congr_right fun _ => ?_)
    refine forall₄_congr fun i node hf _ => and_iff_left (Or.inl ?_)
    exact hreturns.resolve_left fun hnone => Option.some_ne_none i (hf.symm.trans hnone)
  | stop tx =>
    rw [process, Code.bind_some (stop_spec h), Code.ensure_return_eq_some] at hp
    obtain ⟨-, rfl, rfl⟩ := hp
    rw [← h.without_idle]
    refine ⟨fun hall => ⟨Finset.eq_empty_of_forall_notMem fun p hrunning => ?_, trivial⟩,
      fun hidle => Held.of_idle hidle.1⟩
    exact Nat.zero_ne_one (hall p hrunning)
  | stopNode vsIp tx =>
    obtain ⟨state₁, w₁, hd, -, hiff, -⟩ := stopNode_spec vsIp h
    rw [process, Code.bind_some hd, Code.ensure_return_eq_some] at hp
    obtain ⟨-, rfl, rfl⟩ := hp
    exact hiff.trans (and_iff_left trivial).symm
  | waitForReady tx =>
    obtain ⟨b, n, hcalls, -⟩ := process_waitForReady tx state w
    rw [hcalls, Code.answered_iff] at hp
    obtain ⟨-, rfl, rfl⟩ := hp
    exact (and_iff_left trivial).symm

theorem stop_running (tx : Bool) (h : Sound state.children w) :
    (process (.stop tx) state w).2.running = ∅ ↔ Held state.children w := by
  rw [process, Code.bind_some (stop_spec h), Code.ensure_return]
  exact h.without_idle

end Readiness

section Run

variable {ms ns : List VectorStoreCluster} {tmpdir : Path} {succeeds : Nat → Bool} {state : State}
  {w : Machine RunNode}

/-- The messages up to a boundary are handled exactly when none of them panics. -/
theorem handled_iff : (serve process ns (State.new tmpdir) { succeeds }).1.isSome ↔
    Along process Returns ns (State.new tmpdir) { succeeds } :=
  serve_isSome_iff_along (I := fun state w => Sound state.children w)
    (fun m _ _ _ _ h hp => sound_process m h hp) (fun m _ _ h => process_isSome_iff m h)
    (.init succeeds)

theorem sound_serve (hs : serve process ns (State.new tmpdir) { succeeds } = (some state, w)) :
    Sound state.children w :=
  serve_invariant (I := fun state w => Sound state.children w)
    (fun m _ _ _ _ h hp => sound_process m h hp) (.init succeeds) hs

/-- **After a `Stop` no process runs** exactly when no child was replaced before. -/
theorem stop_running_iff (tx : Bool)
    (hs : serve process ns (State.new tmpdir) { succeeds } = (some state, w)) :
    (serve process (ns ++ [.stop tx]) (State.new tmpdir) { succeeds }).2.running = ∅ ↔
      Along process Vacant ns (State.new tmpdir) { succeeds } := by
  rw [serve_concat, Code.bind_some hs, stop_running tx (sound_serve hs),
    holds_iff_along (I := fun state w => Sound state.children w)
      (Q := fun state w => Held state.children w) (fun m _ _ _ _ h hp => sound_process m h hp)
      (fun m _ _ _ _ h hp => held_process_iff m h hp) (.init succeeds) hs]
  exact and_iff_right (Held.of_idle rfl)

theorem ne_of_prefix_concat {m : VectorStoreCluster} (h : ns ++ [m] <+: ms) : ns ≠ ms := by
  rintro rfl
  exact absurd h.length_le (by simp)

/-- What is not all of the messages has been handled, if one of them is `WaitForReady`. -/
theorem Orderly.handled (h : Orderly ms (State.new tmpdir) { succeeds }) {m : VectorStoreCluster}
    {tx : Bool} (hns : ns ++ [m] <+: ms) (hmem : .waitForReady tx ∈ ns) :
    (serve process ns (State.new tmpdir) { succeeds }).1.isSome :=
  handled_iff.mpr <| h.returns ⟨tx, hns.subset (List.mem_append_left _ hmem)⟩ ns
    ((List.prefix_append ns _).trans hns) fun he => absurd he (ne_of_prefix_concat hns)

theorem Replied.orderly (h : Replied ms (State.new tmpdir) { succeeds }) :
    Orderly ms (State.new tmpdir) { succeeds } where
  returns := by
    rintro ⟨tx, hmem⟩ ns hns hlast
    refine handled_iff.mp ?_
    obtain ⟨us, rfl⟩ := hns
    rcases List.mem_append.mp hmem with hbefore | hafter
    · -- it comes before: what follows it is reached, and so is the end if it is another one
      cases us with
      | cons m us => exact h.reached ns m ⟨us, by simp⟩ ⟨tx, hbefore⟩
      | nil =>
        obtain ⟨vs, tx', rfl⟩ := hlast (List.append_nil ns).symm
        obtain ⟨state, w, n, hs, -, -, hp⟩ := h.answered vs tx' ⟨[], by simp⟩
        rw [serve_concat, Code.bind_some hs, hp]
        rfl
    · -- it comes after, and is reached
      obtain ⟨vs, us, rfl⟩ := List.append_of_mem hafter
      obtain ⟨state, w, n, hs, -⟩ := h.answered (ns ++ vs) tx ⟨us, by simp⟩
      refine serve_isSome_of_prefix (List.prefix_append ns vs) ?_
      rw [hs]
      rfl
  vacant := by
    intro ns tx hns hwait
    obtain ⟨state, hstate⟩ := Option.isSome_iff_exists.mp (h.reached ns _ hns hwait)
    exact (stop_running_iff tx (Prod.ext hstate rfl)).mp (h.stopped ns tx hns hwait)

theorem Orderly.replied (h : Orderly ms (State.new tmpdir) { succeeds }) :
    Replied ms (State.new tmpdir) { succeeds } where
  answered := by
    intro ns tx hns
    have hmem : .waitForReady tx ∈ ms := hns.subset (List.mem_append_right _ List.mem_cons_self)
    have hall := handled_iff.mpr (h.returns ⟨tx, hmem⟩ _ hns fun _ => ⟨ns, tx, rfl⟩)
    have hbefore := serve_isSome_of_prefix (List.prefix_append ns _) hall
    rcases hs : serve process ns (State.new tmpdir) { succeeds } with ⟨_ | state, w⟩
    · rw [hs] at hbefore
      cases hbefore
    · rw [serve_concat, Code.bind_some hs] at hall
      obtain ⟨hserves, htx⟩ := (process_isSome_iff _ (sound_serve hs)).mp hall
      obtain ⟨n, hwait, hp⟩ := answered_of_serves hserves htx
      exact ⟨state, w, n, rfl, htx, hwait, hp⟩
  reached ns m hns := by
    rintro ⟨tx, hmem⟩
    exact h.handled hns hmem
  stopped := by
    rintro ns tx hns ⟨tx', hmem⟩
    obtain ⟨state, hstate⟩ := Option.isSome_iff_exists.mp (h.handled hns hmem)
    exact (stop_running_iff tx (Prod.ext hstate rfl)).mpr (h.vacant ns tx hns ⟨tx', hmem⟩)

end Run

/-- **Readiness is a reply** exactly when no message panics, but for the last one if it is not a
`WaitForReady` itself, and no `StartNode` before a `Stop` takes the place of a child. -/
theorem readiness_replied_iff (ms : List VectorStoreCluster) (tmpdir : Path)
    (succeeds : Nat → Bool) :
    Replied ms (State.new tmpdir) { succeeds } ↔ Orderly ms (State.new tmpdir) { succeeds } :=
  ⟨Replied.orderly, Orderly.replied⟩

/-- **A node that does not serve in time ends the actor**, and its process goes on: the `Stop` that
follows is not handled. -/
theorem slow_node_crashes :
    ¬ Replied [.start [{ vsIp := 1, dbIp := 2 }], .waitForReady true, .stop true]
      (State.new "/tmp".toList) { succeeds := fun n => n ≠ 1 } ∧
    (serve process [.start [{ vsIp := 1, dbIp := 2 }], .waitForReady true, .stop true]
      (State.new "/tmp".toList) { succeeds := fun n => n ≠ 1 }).2.running = {0} := by
  have hrunning : (serve process [.start [{ vsIp := 1, dbIp := 2 }], .waitForReady true, .stop true]
      (State.new "/tmp".toList) { succeeds := fun n => n ≠ 1 }).2.running = {0} := by decide
  refine ⟨fun h => ?_, hrunning⟩
  have hstopped := h.stopped [.start [{ vsIp := 1, dbIp := 2 }], .waitForReady true] true
    List.prefix_rfl ⟨true, by simp⟩
  exact absurd (hrunning.symm.trans hstopped) (by decide)

end vector_store_cluster

end E2etest
