import E2etest.Async.Turns
import E2etest.Services.Clients
import E2etest.Services.Restart

/-!
# Clients that restart ScyllaDB nodes

`restart` takes a node down, brings it up, and waits until the cluster is ready; between these
requests the actor may handle those of others. Some clients restart nodes of a running cluster, each
its own, and none is cancelled.

`restarts_keep`: no process is orphaned, and a node is down just while its own client restarts it. The
actor answers a wait only when every node is up, and handles nothing else meanwhile: one that it takes
up while the node of another client is down it never answers, nor the `up_node` of that client
(`restarts_deadlock`).
-/

namespace E2etest

open Async Os Text Channel

/-! ## Entries with an address -/

section Entries

variable {N : Type} {ip : N → Ipv4Addr} {up : N → Bool} {b : Ipv4Addr → Bool} {ns : List N}
  {n n' : N} {i : Nat}

/-- The entries that are down are those of these addresses. -/
def Mirrors (ip : N → Ipv4Addr) (up : N → Bool) (b : Ipv4Addr → Bool) (ns : List N) : Prop :=
  ∀ n ∈ ns, up n = !b (ip n)

theorem Mirrors.eq_none {child : N → Option Pid} (h : Mirrors ip (fun n => (child n).isSome) b ns)
    (hn : n ∈ ns) : child n = none ↔ b (ip n) = true := by
  have hup : (child n).isSome = !b (ip n) := h n hn
  rw [← Option.isNone_iff_eq_none, ← Option.not_isSome, hup, Bool.not_not]

/-- One entry changes, and no other has its address. -/
theorem Mirrors.set (h : Mirrors ip up b ns) (hd : (ns.map ip).Nodup) (hi : ns[i]? = some n)
    (hip : ip n' = ip n) :
    Mirrors ip up (Function.update b (ip n) (!up n')) (ns.set i n') := by
  intro m hm
  obtain ⟨j, hj⟩ := List.mem_iff_getElem?.mp hm
  by_cases hij : i = j
  · subst hij
    obtain ⟨hlt, -⟩ := List.getElem?_eq_some_iff.mp hi
    rw [List.getElem?_set_self hlt] at hj
    obtain rfl := Option.some.inj hj
    rw [hip, Function.update_self, Bool.not_not]
  · rw [List.getElem?_set_ne hij] at hj
    rw [Function.update_of_ne, h m (List.mem_of_getElem? hj)]
    intro he
    have hi' : (ns.map ip)[i]? = some (ip n) := by rw [List.getElem?_map, hi]; rfl
    have hj' : (ns.map ip)[j]? = some (ip n) := by rw [List.getElem?_map, hj, ← he]; rfl
    obtain ⟨hlt, hi'⟩ := List.getElem?_eq_some_iff.mp hi'
    obtain ⟨hlt', hj'⟩ := List.getElem?_eq_some_iff.mp hj'
    exact hij (hd.getElem_inj_iff.mp (hi'.trans hj'.symm))

/-- No entry has the address. -/
theorem Mirrors.other (h : Mirrors ip up b ns) {a : Ipv4Addr} (ha : ∀ n ∈ ns, ip n ≠ a) (v : Bool) :
    Mirrors ip up (Function.update b a v) ns := by
  intro n hn
  rw [Function.update_of_ne (ha n hn)]
  exact h n hn

theorem map_set_ip (ip : N → Ipv4Addr) (n' : N) (hi : ns[i]? = some n) (hip : ip n' = ip n) :
    (ns.set i n').map ip = ns.map ip := by
  obtain ⟨hlt, rfl⟩ := List.getElem?_eq_some_iff.mp hi
  have hlt' : i < (ns.map ip).length := by rwa [List.length_map]
  have he : ip n' = (ns.map ip)[i] := by rw [hip, List.getElem_map]
  rw [List.map_set, he, List.set_getElem_self]

theorem forall_ip_iff {ms : List N} (h : ns.map ip = ms.map ip) (P : Ipv4Addr → Prop) :
    (∀ n ∈ ns, P (ip n)) ↔ ∀ n ∈ ms, P (ip n) := by
  rw [← List.forall_mem_map, h, List.forall_mem_map]

theorem exists_ip_iff {ms : List N} (h : ns.map ip = ms.map ip) (P : Ipv4Addr → Prop) :
    (∃ n ∈ ns, P (ip n)) ↔ ∃ n ∈ ms, P (ip n) := by
  have hmem : ∀ l : List N, (∃ n ∈ l, P (ip n)) ↔ ∃ a ∈ l.map ip, P a := fun l => by simp
  rw [hmem, h, hmem]

end Entries

namespace scylla_cluster

/-- What a request does to a node. -/
def touch : ScyllaClusterExt → Option (Touch Ipv4Addr)
  | .downNode dbIp => some (.empty dbIp)
  | .upNode nodeConfig => some (.fill nodeConfig.dbIp)
  | .version | .start _ | .stop | .waitForReady | .up _ | .down | .flush => none

/-- The requests of `restart`. -/
def OfRestart : ScyllaClusterExt → Prop
  | .downNode _ | .upNode _ | .waitForReady => True
  | .version | .start _ | .stop | .up _ | .down | .flush => False

/-- The child of an entry was started for its address. -/
def Addressed (nodes : List NodeState) (w : Machine RunNode) : Prop :=
  ∀ node ∈ nodes, ∀ p, node.child = some p →
    w.started[p]?.map (fun run => run.nodeConfig.dbIp) = some node.dbIp

/-- A cluster whose nodes are up but for those of the addresses `b`, all of them held, on a machine
where every call succeeds. -/
structure Tended (b : Ipv4Addr → Bool) (state : State) (w : Machine RunNode) : Prop where
  inv : Inv state w
  held : Held state.children w
  nodup : (state.nodes.map NodeState.dbIp).Nodup
  up : Mirrors NodeState.dbIp (fun node => node.child.isSome) b state.nodes
  addressed : Addressed state.nodes w
  calls : ∀ n, w.succeeds n = true
  free : w.stuck = false

section Step

variable {b : Ipv4Addr → Bool} {state : State} {w : Machine RunNode}

/-- Another process starts. -/
theorem Addressed.spawned {nodes : List NodeState} (h : Addressed nodes w) (run : RunNode) :
    Addressed nodes (w.spawned run) := by
  intro node hn p hp
  have hrun := h node hn p hp
  obtain ⟨old, hold, -⟩ := Option.map_eq_some_iff.mp hrun
  obtain ⟨hlt, -⟩ := List.getElem?_eq_some_iff.mp hold
  change (w.started ++ [run])[p]?.map _ = _
  rwa [List.getElem?_append_left hlt]

/-- The process that has just been started. -/
theorem started_next (run : RunNode) : (w.spawned run).started[w.next]? = some run := by
  change (w.started ++ [run])[w.started.length]? = some run
  exact List.getElem?_concat_length

/-- **A node is up** where it should be: the processes that run are those of the entries. -/
theorem Tended.isUp_iff (h : Tended b state w) {node : NodeState} (hn : node ∈ state.nodes) :
    isUp node.dbIp w = true ↔ b node.dbIp = false := by
  have hup : ∀ m ∈ state.nodes, m.child.isSome = !b m.dbIp := h.up
  unfold isUp
  rw [decide_eq_true_iff]
  constructor
  · rintro ⟨p, hp, hrun⟩
    have hone : state.children.count (some p) = 1 := h.held p hp
    obtain ⟨m, hm, hchild⟩ := List.mem_map.mp (List.count_pos_iff.mp (hone ▸ Nat.one_pos))
    have hip : m.dbIp = node.dbIp := by
      rw [h.addressed m hm p hchild] at hrun
      exact Option.some.inj hrun
    have := hup m hm
    rwa [hchild, hip, Option.isSome_some, eq_comm, Bool.not_eq_true'] at this
  · intro hb
    have := hup node hn
    rw [hb, Bool.not_false] at this
    obtain ⟨p, hchild⟩ := Option.isSome_iff_exists.mp this
    exact ⟨p, h.inv.sound.running p (List.mem_map.mpr ⟨node, hn, hchild⟩),
      h.addressed node hn p hchild⟩

theorem find_dbIp {dbIp : Ipv4Addr} {node : NodeState} {i : Nat}
    (h : state.find dbIp = some (node, i)) : node.dbIp = dbIp := by
  have := List.find?_some h
  simpa using this

theorem find_none {dbIp : Ipv4Addr} (h : state.find dbIp = none) :
    ∀ node ∈ state.nodes, node.dbIp ≠ dbIp := by
  intro node hn he
  obtain ⟨i, hi⟩ := List.mem_iff_getElem?.mp hn
  have := List.find?_eq_none.mp h (node, i) (List.mem_zipIdx_iff_getElem?.mpr hi)
  simp [he] at this

theorem Tended.downNode (h : Tended b state w) (dbIp : Ipv4Addr) : ∃ state' w',
    scylla_cluster.downNode state dbIp w = (some state', w') ∧
      Tended (Function.update b dbIp true) state' w' ∧
      state'.nodes.map NodeState.dbIp = state.nodes.map NodeState.dbIp := by
  rcases hf : state.find dbIp with _ | ⟨node, i⟩
  · refine ⟨state, w, by unfold scylla_cluster.downNode; rw [hf]; rfl,
      ⟨h.inv, h.held, h.nodup, h.up.other (find_none hf) true, h.addressed, h.calls, h.free⟩, rfl⟩
  · have hi := find_spec hf
    obtain rfl := find_dbIp hf
    obtain ⟨state', w', hd, hinv, hheld, -⟩ := downNode_spec node.dbIp h.inv
    refine ⟨state', w', hd, ?_⟩
    rw [downNode_some hf] at hd
    obtain ⟨_, w₁, hkill, hd⟩ := Code.bind_eq_some.mp hd
    cases hd
    have hsame : w'.succeeds = w.succeeds ∧ w'.started = w.started ∧ w'.stuck = w.stuck := by
      cases hc : node.child with
      | none =>
        rw [hc] at hkill
        cases hkill
        exact ⟨rfl, rfl, rfl⟩
      | some p =>
        rw [hc] at hkill
        rw [kill_eq_some hkill]
        exact ⟨rfl, rfl, rfl⟩
    have hmap := map_set_ip NodeState.dbIp { node with child := none } hi rfl
    refine ⟨⟨hinv, hheld.mpr h.held, ?_, h.up.set h.nodup hi rfl, fun m hm p hp => ?_, fun n => ?_,
      hsame.2.2.trans h.free⟩, hmap⟩
    · rw [hmap]
      exact h.nodup
    · rw [hsame.2.1]
      rcases List.mem_or_eq_of_mem_set hm with hm | rfl
      · exact h.addressed m hm p hp
      · cases hp
    · rw [hsame.1]
      exact h.calls n

theorem Tended.upNode (h : Tended b state w) {nodeConfig : ScyllaNodeConfig}
    (hb : b nodeConfig.dbIp = true) : ∃ state' w',
    scylla_cluster.upNode nodeConfig state w = (some state', w') ∧
      Tended (Function.update b nodeConfig.dbIp false) state' w' ∧
      state'.nodes.map NodeState.dbIp = state.nodes.map NodeState.dbIp := by
  rcases hf : state.find nodeConfig.dbIp with _ | ⟨node, i⟩
  · rw [upNode_none hf]
    exact ⟨state, w, rfl,
      ⟨h.inv, h.held, h.nodup, h.up.other (find_none hf) false, h.addressed, h.calls, h.free⟩, rfl⟩
  · have hi := find_spec hf
    have hip := find_dbIp hf
    rw [← hip] at hb ⊢
    have hmem := List.mem_of_getElem? hi
    obtain ⟨path, hpath⟩ := Option.isSome_iff_exists.mp (h.inv.workdir node hmem)
    obtain ⟨first, _, -, hup⟩ := upNode_some hf hpath
    obtain ⟨hinv, hheld⟩ := h.inv.runAgain hi ⟨nodeConfig, first.dbIp, path, rackName i⟩
    have hnone : node.child = none := (h.up.eq_none hmem).mpr hb
    have hmap := map_set_ip NodeState.dbIp { node with child := some w.next } hi rfl
    rw [hup, Code.bind_some (runAgain_some (h.calls w.calls))]
    refine ⟨_, _, rfl,
      ⟨hinv, hheld.mpr ⟨h.held, hnone⟩, ?_, h.up.set h.nodup hi rfl, fun m hm p hp => ?_, h.calls,
        h.free⟩, hmap⟩
    · rw [hmap]
      exact h.nodup
    · rcases List.mem_or_eq_of_mem_set hm with hm | rfl
      · exact h.addressed.spawned _ m hm p hp
      · obtain rfl := Option.some.inj hp
        rw [started_next]
        exact congrArg some hip.symm

/-- **A wait is answered when every node is up**, and otherwise goes on for ever. -/
theorem Tended.waitForReady (h : Tended b state w) : ∃ n k,
    scylla_cluster.waitForReady state w =
      (if ∀ node ∈ state.nodes, b node.dbIp = false then some !state.nodes.isEmpty else none,
        { w with calls := n, stuck := k }) ∧
      (k = true ↔ ∃ node ∈ state.nodes, b node.dbIp = true) := by
  obtain ⟨n, k, hn, hk⟩ := waitForReady_spec state w
  have hall : w.Succeeds state.nodes.length := fun k _ => h.calls _
  have hup : (∀ node ∈ state.nodes, isUp node.dbIp w = true) ↔
      ∀ node ∈ state.nodes, b node.dbIp = false := forall₂_congr fun node hn => h.isUp_iff hn
  refine ⟨n, k, ?_, ?_⟩
  · rw [hn]
    simp only [hall, true_and, hup]
  · rw [hk hall, h.free, or_iff_right Bool.false_ne_true]
    refine exists_congr fun node => and_congr_right fun hnode => ?_
    rw [← Bool.not_eq_true, h.isUp_iff hnode, Bool.not_eq_false]

/-- Where a node is down, a wait goes on for ever, whether or not somebody waits for its answer. -/
theorem Tended.stuck (h : Tended b state w) (hdown : ∃ node ∈ state.nodes, b node.dbIp = true)
    (version : Str) (heard : Bool) : ∃ w',
      (service version).process .waitForReady heard state w = (none, w') ∧ w'.stuck = true := by
  obtain ⟨n, k, hn, hk⟩ := h.waitForReady
  have hnot : ¬ ∀ node ∈ state.nodes, b node.dbIp = false := by
    obtain ⟨node, hnode, hb⟩ := hdown
    exact fun hall => Bool.false_ne_true ((hall node hnode).symm.trans hb)
  rw [if_neg hnot] at hn
  have hp : scylla_cluster.process (.waitForReady heard) state w = (none, _) := Code.bind_none hn
  exact ⟨_, process_serviceOf_none_eq hp, hk.mpr hdown⟩

/-- **One request of a restart** is handled, and changes its own node only; but for a wait while a
node is down. -/
theorem Tended.process (h : Tended b state w) {q : ScyllaClusterExt} {heard : Bool}
    (hq : OfRestart q) (hb : ∀ dbIp, touch q = some (.fill dbIp) → b dbIp = true)
    (hheard : heard = true ∨ q.told ≠ none) :
    (∃ state' w', scylla_cluster.process (q.message heard) state w = (some state', w') ∧
        Tended (emptied touch b q) state' w' ∧
        state'.nodes.map NodeState.dbIp = state.nodes.map NodeState.dbIp) ∨
      q = .waitForReady ∧ ∃ node ∈ state.nodes, b node.dbIp = true := by
  cases q with
  | downNode dbIp =>
    obtain rfl : heard = true := hheard.resolve_right fun hne => hne rfl
    obtain ⟨state', w', hd, htended, hmap⟩ := h.downNode dbIp
    exact Or.inl ⟨state', w', Code.bind_some hd, htended, hmap⟩
  | upNode nodeConfig => exact Or.inl (h.upNode (hb _ rfl))
  | waitForReady =>
    obtain rfl : heard = true := hheard.resolve_right fun hne => hne rfl
    by_cases hdown : ∃ node ∈ state.nodes, b node.dbIp = true
    · exact Or.inr ⟨rfl, hdown⟩
    · have hall : ∀ node ∈ state.nodes, b node.dbIp = false := fun node hn =>
        Bool.eq_false_of_not_eq_true fun hb => hdown ⟨node, hn, hb⟩
      obtain ⟨n, k, hn, hk⟩ := h.waitForReady
      rw [if_pos hall] at hn
      have hfree : k = false := Bool.eq_false_of_not_eq_true fun he => hdown (hk.mp he)
      exact Or.inl ⟨state, { w with calls := n, stuck := k }, Code.bind_some hn,
        ⟨h.inv.unchanged rfl rfl, h.held, h.nodup, h.up, h.addressed, h.calls, hfree⟩, rfl⟩
  | version | start _ | stop | up _ | down | flush => exact hq.elim

/-- **What is waited for** for ever is that a node comes up. -/
theorem Tended.waits (h : Tended b state w) {q : ScyllaClusterExt} {heard : Bool}
    {w' : Machine RunNode} (hq : OfRestart q)
    (hb : ∀ dbIp, touch q = some (.fill dbIp) → b dbIp = true)
    (hp : (scylla_cluster.process (q.message heard) state w).2 = w') (hs : w'.stuck = true) :
    q = .waitForReady ∧ ∃ node ∈ state.nodes, b node.dbIp = true := by
  subst hp
  cases q with
  | downNode dbIp =>
    obtain ⟨state', w', hd, htended, -⟩ := h.downNode dbIp
    rw [ScyllaClusterExt.message, scylla_cluster.process, Code.bind_some hd, Code.ensure_return] at hs
    cases htended.free.symm.trans hs
  | upNode nodeConfig =>
    obtain ⟨state', w', hd, htended, -⟩ := h.upNode (hb _ rfl)
    rw [ScyllaClusterExt.message, scylla_cluster.process, hd] at hs
    cases htended.free.symm.trans hs
  | waitForReady =>
    refine ⟨rfl, ?_⟩
    obtain ⟨n, k, hn, hk⟩ := h.waitForReady
    refine hk.mp ?_
    by_cases hall : ∀ node ∈ state.nodes, b node.dbIp = false
    · rw [if_pos hall] at hn
      rwa [ScyllaClusterExt.message, scylla_cluster.process, Code.bind_some hn,
        Code.ensure_return] at hs
    · rw [if_neg hall] at hn
      rwa [ScyllaClusterExt.message, scylla_cluster.process, Code.bind_none hn] at hs
  | version | start _ | stop | up _ | down | flush => exact hq.elim

end Step

section Start

variable {tempdir : Path} {nodeConfigs : List ScyllaNodeConfig} {succeeds : Nat → Bool}
  {state : State} {w w' : Machine RunNode}

/-- A node that is started is run for its address. -/
theorem Addressed.startNode {seedIp : Ipv4Addr} {c : ScyllaNodeConfig × Nat} {node : NodeState}
    {nodes : List NodeState} (ha : Addressed nodes w)
    (h : startNode tempdir seedIp c w = (some node, w')) : Addressed (nodes ++ [node]) w' := by
  rw [startNode_eq] at h
  obtain ⟨child, w₁, hrun, h⟩ := Code.bind_eq_some.mp h
  obtain ⟨-, rfl, rfl⟩ := runNode_eq_some hrun
  cases h
  intro m hm p hp
  rcases List.mem_append.mp hm with hm | hm
  · exact Addressed.spawned (w := w.withTempDirs (w.tempDirs + 1)) ha _ m hm p hp
  · obtain rfl := List.mem_singleton.mp hm
    obtain rfl := Option.some.inj hp
    rw [started_next]
    rfl

theorem startNode_up {seedIp : Ipv4Addr} {c : ScyllaNodeConfig × Nat} {node : NodeState}
    (h : startNode tempdir seedIp c w = (some node, w')) :
    node.child.isSome ∧ w'.succeeds = w.succeeds ∧ w'.stuck = w.stuck := by
  rw [startNode_eq] at h
  obtain ⟨child, w₁, hrun, h⟩ := Code.bind_eq_some.mp h
  obtain ⟨-, -, rfl⟩ := runNode_eq_some hrun
  cases h
  exact ⟨rfl, rfl, rfl⟩

theorem pushAll_keeps {seedIp : Ipv4Addr} {cs : List (ScyllaNodeConfig × Nat)}
    {nodes nodes' : List NodeState} (ha : Addressed nodes w)
    (h : pushAll (startNode tempdir seedIp) cs nodes w = (some nodes', w')) :
    w'.succeeds = w.succeeds ∧ w'.stuck = w.stuck ∧ Addressed nodes' w' := by
  induction cs generalizing nodes w with
  | nil =>
    cases h
    exact ⟨rfl, rfl, ha⟩
  | cons c cs ih =>
    obtain ⟨node, w₁, hnode, h⟩ := Code.bind_eq_some.mp h
    obtain ⟨hs, hstuck, ha'⟩ := ih (ha.startNode hnode) h
    obtain ⟨-, hs₁, hstuck₁⟩ := startNode_up hnode
    exact ⟨hs.trans hs₁, hstuck.trans hstuck₁, ha'⟩

/-- **A cluster that has just been started** is up, where its nodes have addresses of their own. -/
theorem tended_start (hd : (nodeConfigs.map ScyllaNodeConfig.dbIp).Nodup)
    (hs : ∀ n, succeeds n = true)
    (h : start nodeConfigs (State.new tempdir) { succeeds } = (some state, w)) :
    Tended (fun _ => false) state w := by
  obtain ⟨hinv, hheld⟩ := start_spec nodeConfigs (Inv.init tempdir succeeds)
  rw [h] at hheld
  have hplaces := (start_grows h).places
  cases nodeConfigs with
  | nil =>
    cases h
    exact ⟨.init tempdir succeeds, .of_idle rfl, .nil, fun _ hn => absurd hn List.not_mem_nil,
      fun _ hn => absurd hn List.not_mem_nil, hs, rfl⟩
  | cons first rest =>
    have hips : state.nodes.map NodeState.dbIp = (first :: rest).map ScyllaNodeConfig.dbIp := by
      have := congrArg (List.map Prod.fst) hplaces
      rw [List.map_map, List.map_append, startRuns, List.map_map, List.map_map, List.map_map] at this
      rw [← List.zipIdx_map_fst 0 (first :: rest), List.map_map]
      exact this
    obtain ⟨nodes, w₁, hpush, hstate⟩ := Code.bind_eq_some.mp h
    have hup : ∀ node ∈ nodes, node.child.isSome := forall_pushAll
      (fun _ _ _ _ hnode => (startNode_up hnode).1) (fun _ hn => absurd hn List.not_mem_nil) hpush
    obtain ⟨hcalls, hfree, haddressed⟩ :=
      pushAll_keeps (fun _ hn => absurd hn List.not_mem_nil) hpush
    cases hstate
    refine ⟨hinv _ _ h, hheld.mpr ⟨.of_idle rfl, Or.inl fun k _ => hs _⟩, ?_, hup, haddressed,
      fun n => ?_, hfree⟩
    · rw [hips]
      exact hd
    · rw [hcalls]
      exact hs n

end Start

/-- `restart`, and then the rest of the client: `assert!(self.wait_for_ready().await)`. -/
def restart (nodeConfig : ScyllaNodeConfig)
    (rest : Client ScyllaClusterExt ScyllaClusterExt.Reply) :
    Client ScyllaClusterExt ScyllaClusterExt.Reply :=
  round (.downNode nodeConfig.dbIp) (.upNode nodeConfig) .waitForReady (fun ready => ready) rest

/-- Some restarts, one after the other. -/
def restarts : List ScyllaNodeConfig → Client ScyllaClusterExt ScyllaClusterExt.Reply
  | [] => .done
  | nodeConfig :: nodeConfigs => restart nodeConfig (restarts nodeConfigs)

theorem restarts_eq (nodeConfigs : List ScyllaNodeConfig) : restarts nodeConfigs =
    roundsOf (fun c => .downNode c.dbIp) .upNode .waitForReady (fun ready => ready)
      nodeConfigs := by
  induction nodeConfigs with
  | nil => rfl
  | cons c cs ih =>
    rw [restarts, restart, ih]
    rfl

section Clients

variable {ι : Type} [DecidableEq ι] {owner : Ipv4Addr → ι} {cap : Nat}
  {nodeConfigs : ι → List ScyllaNodeConfig} {version : Str} {state : State} {w : Machine RunNode}
  {t : List (Label ι ScyllaClusterExt ScyllaClusterExt.Reply)}
  {x : Net ι ScyllaClusterExt ScyllaClusterExt.Reply State (Machine RunNode)}

omit [DecidableEq ι] in
theorem rounds_restarts (hown : ∀ i, ∀ c ∈ nodeConfigs i, owner c.dbIp = i) :
    Rounds touch owner (fun c : ScyllaNodeConfig => .downNode c.dbIp) .upNode .waitForReady
      ScyllaNodeConfig.dbIp nodeConfigs fun i => restarts (nodeConfigs i) where
  empties _ := rfl
  fills _ := rfl
  asks := rfl
  own := hown
  makes i := by
    rw [restarts_eq]
    exact makes_roundsOf (nodeConfigs i)

/-- The node of the address is down: its client has taken it down, and not brought it up yet. -/
def Down (owner : Ipv4Addr → ι) (t : List (Label ι ScyllaClusterExt ScyllaClusterExt.Reply))
    (dbIp : Ipv4Addr) : Prop :=
  (requestsOf (owner dbIp) (served t)).getLast? = some (.downNode dbIp)

omit [DecidableEq ι] in
/-- The cluster is tended when the requests of restarts are handled. -/
theorem handles_restarts (places : List Ipv4Addr) : Handles (ι := ι) (service version)
    (fun l => Turns touch (fun _ => false) (l.map Prod.snd) ∧ ∀ m ∈ l, OfRestart m.2)
    (fun l state w => Tended ((l.map Prod.snd).foldl (emptied touch) fun _ => false) state w ∧
      state.nodes.map NodeState.dbIp = places) False := by
  rintro done i q heard state w ⟨hturns, hof⟩ ⟨htended, hplaces⟩ hheard
  rw [List.map_append, List.map_singleton, turns_snoc] at hturns
  rcases htended.process (hof (i, q) (List.mem_append_right _ List.mem_cons_self)) hturns.2
    (hheard.imp_right fun h => h.resolve_right id) with
    ⟨state', w', hp, htended', hsame⟩ | ⟨rfl, hdown⟩
  · refine Or.inl ⟨state', _, w', process_serviceOf_some.mpr ⟨hp, rfl⟩, ?_, hsame.trans hplaces⟩
    rw [List.map_append, List.foldl_append]
    exact htended'
  · exact Or.inr (htended.stuck hdown version heard)

variable (hown : ∀ i, ∀ c ∈ nodeConfigs i, owner c.dbIp = i)
  (hw : Tended (fun _ => false) state w)
  (h : Run (service version) cap (Channel.start (fun i => restarts (nodeConfigs i)) state w) t x)
  (hcancel : ∀ i, .cancel i ∉ t)

include hown hw h hcancel

theorem healthy_restarts : Healthy (service version)
      (fun l state' w => Tended ((l.map Prod.snd).foldl (emptied touch) fun _ => false) state' w ∧
        state'.nodes.map NodeState.dbIp = state.nodes.map NodeState.dbIp) t x ∧
    ∀ i, .fail i ∉ t := by
  have hr := rounds_restarts hown
  refine (all_served (handles_restarts _) ⟨hw, rfl⟩ h (fun l hl => ⟨hr.turns h hl, fun m hm => ?_⟩)
    (Or.inr hcancel)).imp_right And.left
  rcases hr.mem_sent h (hl.subset hm) with ⟨c, hc⟩ | ⟨c, hc⟩ | hc <;> rw [hc] <;> trivial

omit hw hcancel in
theorem empty_iff_down (dbIp : Ipv4Addr) :
    ((served t).map Prod.snd).foldl (emptied touch) (fun _ => false) dbIp = true ↔
      Down owner t dbIp := by
  rw [(rounds_restarts hown).empty_iff h]
  constructor
  · rintro ⟨c, hc, hlast⟩
    rwa [hc] at hlast
  · exact fun hlast => ⟨{ dbIp }, rfl, hlast⟩

omit hw hcancel in
theorem exists_down_iff {state' : State}
    (hplaces : state'.nodes.map NodeState.dbIp = state.nodes.map NodeState.dbIp) :
    (∃ node ∈ state'.nodes,
        ((served t).map Prod.snd).foldl (emptied touch) (fun _ => false) node.dbIp = true) ↔
      ∃ node ∈ state.nodes, Down owner t node.dbIp := by
  rw [exists_ip_iff hplaces
    fun dbIp => ((served t).map Prod.snd).foldl (emptied touch) (fun _ => false) dbIp = true]
  exact exists_congr fun node => and_congr_right fun _ => empty_iff_down hown h node.dbIp

/-- **A wait that is answered** ends well where there are nodes, and no node is down then. -/
theorem answered_up {i : ι} {ready : Bool} {pre : List (Label ι ScyllaClusterExt _)}
    (hpre : pre ++ [.answer i ⟨.waitForReady, ready⟩] <+: t) :
    (state.nodes ≠ [] → ready = true) ∧ ∀ node ∈ state.nodes, ¬ Down owner pre node.dbIp := by
  obtain ⟨rest, rfl⟩ := hpre
  obtain ⟨z, hanswered, -⟩ := h.split
  obtain ⟨y, hrun, hs⟩ := run_snoc.mp hanswered
  obtain ⟨hhealthy, -⟩ := healthy_restarts hown hw hrun fun j hj => hcancel j (by simp [hj])
  cases hs with
  | @answer _ _ _ s s' _ w' ha _ _ hp =>
    obtain ⟨htended, hplaces⟩ := hhealthy.state (s := s) (by rw [ha]; rfl)
    have hnone : ¬ ∃ node ∈ state.nodes, Down owner pre node.dbIp := by
      rw [← exists_down_iff hown hrun hplaces]
      intro hdown
      obtain ⟨w'', hp', -⟩ := htended.stuck hdown version true
      cases hp.symm.trans hp'
    refine ⟨fun hne => ?_, fun node hn hdown => hnone ⟨node, hn, hdown⟩⟩
    obtain ⟨n, k, hn, -⟩ := htended.waitForReady
    rw [if_pos fun node hn => Bool.eq_false_of_not_eq_true fun hb =>
      hnone ((exists_down_iff hown hrun hplaces).mp ⟨node, hn, hb⟩)] at hn
    have hreply := (process_serviceOf_some.mp hp).2
    change ready = (waitForReady s y.world).1.getD false at hreply
    rw [hreply, hn, Option.getD_some, Bool.not_eq_true', List.isEmpty_eq_false_iff]
    rintro hnil
    rw [hnil] at hplaces
    exact hne (List.map_eq_nil_iff.mp hplaces.symm)

/-- **A wait that is taken up while a node is down** is the last request that is handled. -/
theorem waits_for_ever {i : ι} {state' : State} (ha : x.actor = .busy i .waitForReady state')
    (hdown : ∃ node ∈ state.nodes, Down owner t node.dbIp)
    {u : List (Label ι ScyllaClusterExt _)} {z : Net ι ScyllaClusterExt _ State _}
    (hu : Run (service version) cap x u z) : z.actor = x.actor ∧ handled u = [] := by
  obtain ⟨htended, hplaces⟩ :=
    (healthy_restarts hown hw h hcancel).1.state (s := state') (by rw [ha]; rfl)
  obtain ⟨hactor, -, hhandled⟩ := hu.stuck ha
    (htended.stuck ((exists_down_iff hown h hplaces).mpr hdown) version)
  exact ⟨hactor, hhandled⟩

/-- **The actor waits for ever** in a wait only, while a node is down. -/
theorem stuck_waits (hs : x.Stuck (service version)) : ∃ i state',
    x.actor = .busy i .waitForReady state' ∧ ∃ node ∈ state.nodes, Down owner t node.dbIp := by
  obtain ⟨i, q, s, heard, w', ha, -, hp, hstuck⟩ := hs
  have hr := rounds_restarts hown
  have hnext := served_next h ha
  have hturns : Turns touch (fun _ => false) _ := hr.turns h hnext
  rw [List.map_append, List.map_singleton, turns_snoc] at hturns
  obtain ⟨htended, hplaces⟩ :=
    (healthy_restarts hown hw h hcancel).1.state (s := s) (by rw [ha]; rfl)
  have hof : OfRestart q := by
    have hmem : (i, q) ∈ sent t := hnext.subset (List.mem_append_right _ List.mem_cons_self)
    rcases hr.mem_sent h hmem with ⟨c, hc⟩ | ⟨c, hc⟩ | hc <;>
    · obtain rfl := hc
      trivial
  obtain ⟨rfl, hdown⟩ := htended.waits hof hturns.2
    (congrArg Prod.snd (process_serviceOf_crash hp)) hstuck
  exact ⟨i, s, ha, (exists_down_iff hown h hplaces).mp hdown⟩

end Clients

/-- An entry, with its process and the number of its directory. -/
def entry (dbIp : Ipv4Addr) (child : Option Pid) (dir : Nat) : NodeState :=
  ⟨dbIp, child, some ⟨"/tmp".toList, dir⟩⟩

/-- The state with these entries. -/
def withNodes (nodes : List NodeState) : State := ⟨"/tmp".toList, nodes⟩

/-- A machine that runs two nodes. -/
def pairWorld : Machine RunNode where
  started := [⟨{ dbIp := 1 }, 1, ⟨"/tmp".toList, 0⟩, rackName 0⟩,
    ⟨{ dbIp := 2 }, 1, ⟨"/tmp".toList, 1⟩, rackName 1⟩]
  running := {1, 0}
  tempDirs := 2
  calls := 2
  succeeds _ := true

theorem tended_pair :
    Tended (fun _ => false) (withNodes [entry 1 (some 0) 0, entry 2 (some 1) 1]) pairWorld :=
  have hips : ([⟨1, [], [], [], none, none, none⟩, ⟨2, [], [], [], none, none, none⟩].map
      ScyllaNodeConfig.dbIp).Nodup := by decide
  tended_start hips (fun _ => rfl) rfl

/-- The clients of two nodes, each with a node of its own. -/
def pairClients (i : Bool) : Client ScyllaClusterExt ScyllaClusterExt.Reply :=
  restarts [if i then { dbIp := 2 } else { dbIp := 1 }]

/-- The nodes of the two clients are up, and nothing has been asked. -/
def pairStart : Net Bool ScyllaClusterExt ScyllaClusterExt.Reply State (Machine RunNode) :=
  Channel.start pairClients (withNodes [entry 1 (some 0) 0, entry 2 (some 1) 1]) pairWorld

/-- Whose node it is. -/
def pairOwner (dbIp : Ipv4Addr) : Bool := decide (dbIp = 2)

theorem owner_pair : ∀ i : Bool,
    ∀ c ∈ [if i then (⟨2, [], [], [], none, none, none⟩ : ScyllaNodeConfig) else { dbIp := 1 }],
      pairOwner c.dbIp = i := by decide

theorem not_awaited {x : Net Bool ScyllaClusterExt ScyllaClusterExt.Reply State (Machine RunNode)}
    {i : Bool} {q : ScyllaClusterExt} {r : q.Reply} (hq : q.told = some r) :
    ¬ x.Awaited (service []) i q := by
  rintro ⟨ht, -⟩
  cases hq.symm.trans ht

/-- **A restart waits for ever** for a node that another client has taken down: the request that
brings it up again is behind the wait in the queue. -/
theorem restarts_deadlock : ∃ t x s, Run (service []) 10 pairStart t x ∧ (∀ i, .cancel i ∉ t) ∧
    x.actor = .busy false .waitForReady s ∧ x.queue = [(true, .upNode { dbIp := 2 })] ∧
    ∀ u z, Run (service []) 10 x u z → z.actor = x.actor ∧ handled u = [] := by
  let again : Machine RunNode := (Machine.killed 1 (pairWorld.killed 0)).spawned
    ⟨{ dbIp := 1 }, 1, ⟨"/tmp".toList, 0⟩, rackName 0⟩
  have hdown₁ : (service []).process (.downNode 1) true
      (withNodes [entry 1 (some 0) 0, entry 2 (some 1) 1]) pairWorld =
      (some (withNodes [entry 1 none 0, entry 2 (some 1) 1], ()), pairWorld.killed 0) := rfl
  have hdown₂ : (service []).process (.downNode 2) true
      (withNodes [entry 1 none 0, entry 2 (some 1) 1]) (pairWorld.killed 0) =
      (some (withNodes [entry 1 none 0, entry 2 none 1], ()),
        Machine.killed 1 (pairWorld.killed 0)) := rfl
  have hup : (service []).process (.upNode { dbIp := 1 }) false
      (withNodes [entry 1 none 0, entry 2 none 1]) (Machine.killed 1 (pairWorld.killed 0)) =
      (some (withNodes [entry 1 (some 2) 0, entry 2 none 1], ()), again) := rfl
  have h₀ : Run (service []) 10 pairStart [] pairStart := .refl
  have h₁ := h₀.tail (.ask (i := false) rfl rfl rfl (by decide))
  have h₂ := h₁.tail (.ask (i := true) rfl rfl rfl (by decide))
  have h₃ := h₂.tail (.take rfl rfl)
  have h₄ := h₃.tail (.answer rfl rfl rfl hdown₁)
  have h₅ := h₄.tail (.tell (i := false) rfl rfl rfl (by decide))
  have h₆ := h₅.tail (.ask (i := false) rfl rfl rfl (by decide))
  have h₇ := h₆.tail (.take rfl rfl)
  have h₈ := h₇.tail (.answer rfl rfl rfl hdown₂)
  have h₉ := h₈.tail (.tell (i := true) rfl rfl rfl (by decide))
  have h₁₀ := h₉.tail (.take rfl rfl)
  have h₁₁ := h₁₀.tail (.serve rfl (not_awaited rfl) hup)
  have h₁₂ := h₁₁.tail (.take rfl rfl)
  refine ⟨_, _, _, h₁₂, by simp, rfl, rfl, fun u z hu => ?_⟩
  -- the client `true` has asked for its node, but the actor has not taken the request
  refine waits_for_ever owner_pair tended_pair h₁₂ (by simp) rfl ⟨entry 2 (some 1) 1, ?_, ?_⟩ hu
  · exact List.mem_cons_of_mem _ List.mem_cons_self
  · unfold Down
    decide

end scylla_cluster

end E2etest
