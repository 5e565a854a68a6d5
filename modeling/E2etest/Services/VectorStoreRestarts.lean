import E2etest.Services.Restarts
import E2etest.Services.VectorStoreNodes

/-!
# Clients that restart Vector Store nodes

`restart` stops a node, starts it, and asks whether the cluster is ready. It is not while another
client has stopped a node of its own, and the client then panics.

`nodes_restarted`: where some clients restart nodes of a cluster that is up, each its own, and none is
cancelled, no process is orphaned, and a node is down just while its own client restarts it.
-/

namespace E2etest

open Async Os Text Channel

namespace vector_store_cluster

/-- What a request does to a node. -/
def touch : VectorStoreClusterExt → Option (Touch Ipv4Addr)
  | .stopNode vsIp => some (.empty vsIp)
  | .startNode nodeConfig => some (.fill nodeConfig.vsIp)
  | .version | .start _ | .stop | .waitForReady => none

/-- The requests of `restart`. -/
def OfRestart : VectorStoreClusterExt → Prop
  | .stopNode _ | .startNode _ | .waitForReady => True
  | .version | .start _ | .stop => False

/-- A cluster whose nodes are up but for those of the addresses `b`, all of them held, on a machine
where every call succeeds, and every node that is asked serves in time. -/
structure Tended (b : Ipv4Addr → Bool) (state : State) (w : Machine RunNode) : Prop where
  sound : Sound state.children w
  held : Held state.children w
  nodup : (state.nodes.map NodeState.vsIp).Nodup
  up : Mirrors NodeState.vsIp (fun node => node.child.isSome) b state.nodes
  client : ∀ node ∈ state.nodes, node.client.isSome = node.child.isSome
  calls : ∀ n, w.succeeds n = true

section Step

variable {b : Ipv4Addr → Bool} {state : State} {w w' : Machine RunNode}

theorem find_vsIp {vsIp : Ipv4Addr} {node : NodeState} {i : Nat}
    (h : state.find vsIp = some (node, i)) : node.vsIp = vsIp := by
  have := List.find?_some h
  simpa using this

theorem find_none {vsIp : Ipv4Addr} (h : state.find vsIp = none) :
    ∀ node ∈ state.nodes, node.vsIp ≠ vsIp := by
  intro node hn he
  obtain ⟨i, hi⟩ := List.mem_iff_getElem?.mp hn
  have := List.find?_eq_none.mp h (node, i) (List.mem_zipIdx_iff_getElem?.mpr hi)
  simp [he] at this

theorem newNode_up {newDir : Code (Machine RunNode) TempDir} {nodeConfig : VectorStoreNodeConfig}
    {node : NodeState} (h : newNode newDir nodeConfig w = (some node, w')) :
    node.vsIp = nodeConfig.vsIp ∧ node.child.isSome ∧ node.client.isSome := by
  obtain ⟨_, _, _, -, rfl⟩ := newNode_eq_some h
  exact ⟨rfl, rfl, rfl⟩

/-- One entry changes, and has a client when it has a child. -/
theorem client_set {nodes : List NodeState} {i : Nat} {node : NodeState}
    (h : ∀ node ∈ nodes, node.client.isSome = node.child.isSome)
    (hn : node.client.isSome = node.child.isSome) :
    ∀ n ∈ nodes.set i node, n.client.isSome = n.child.isSome := by
  intro n hmem
  rcases List.mem_or_eq_of_mem_set hmem with hmem | rfl
  · exact h n hmem
  · exact hn

theorem Tended.stopNode (h : Tended b state w) (vsIp : Ipv4Addr) : ∃ state' w',
    vector_store_cluster.stopNode state vsIp w = (some state', w') ∧
      Tended (Function.update b vsIp true) state' w' ∧
      state'.nodes.map NodeState.vsIp = state.nodes.map NodeState.vsIp := by
  rcases hf : state.find vsIp with _ | ⟨node, i⟩
  · refine ⟨state, w, by unfold vector_store_cluster.stopNode; rw [hf]; rfl,
      ⟨h.sound, h.held, h.nodup, h.up.other (find_none hf) true, h.client, h.calls⟩, rfl⟩
  · have hi := find_spec hf
    obtain rfl := find_vsIp hf
    obtain ⟨state', w', hd, hsound, hheld, -⟩ := stopNode_spec node.vsIp h.sound
    refine ⟨state', w', hd, ?_⟩
    rw [stopNode_some hf] at hd
    obtain ⟨_, w₁, hkill, hd⟩ := Code.bind_eq_some.mp hd
    cases hd
    have hcalls : w'.succeeds = w.succeeds := by
      cases hc : node.child with
      | none =>
        rw [hc] at hkill
        cases hkill
        rfl
      | some p =>
        rw [hc] at hkill
        rw [kill_eq_some hkill]
        rfl
    have hmap := map_set_ip NodeState.vsIp { node with child := none, client := none } hi rfl
    refine ⟨⟨hsound, hheld.mpr h.held, ?_, h.up.set h.nodup hi rfl, client_set h.client rfl,
      fun n => ?_⟩, hmap⟩
    · rw [hmap]
      exact h.nodup
    · rw [hcalls]
      exact h.calls n

theorem Tended.startNode (h : Tended b state w) {nodeConfig : VectorStoreNodeConfig}
    (hb : b nodeConfig.vsIp = true) : ∃ state' w',
    vector_store_cluster.startNode nodeConfig state w = (some state', w') ∧
      Tended (Function.update b nodeConfig.vsIp false) state' w' ∧
      state'.nodes.map NodeState.vsIp = state.nodes.map NodeState.vsIp := by
  cases hf : state.position nodeConfig.vsIp with
  | none =>
    rw [startNode_none hf]
    have hne : ∀ node ∈ state.nodes, node.vsIp ≠ nodeConfig.vsIp := fun node hn he => by
      have := List.findIdx?_eq_none_iff.mp hf node hn
      simp [he] at this
    exact ⟨state, w, rfl,
      ⟨h.sound, h.held, h.nodup, h.up.other hne false, h.client, h.calls⟩, rfl⟩
  | some i =>
    obtain ⟨hlt, hvs, -⟩ := List.findIdx?_eq_some_iff_getElem.mp hf
    have hi : state.nodes[i]? = some state.nodes[i] := List.getElem?_eq_getElem hlt
    have hip : state.nodes[i].vsIp = nodeConfig.vsIp := of_decide_eq_true hvs
    obtain ⟨node', c, dirs, hmake, -, hsound, hheld⟩ :=
      (starts_newNode_default nodeConfig).put h.sound hi (h.calls w.calls)
    obtain ⟨hvs', hchild, hclient⟩ := newNode_up hmake
    have hnone : state.nodes[i].child = none :=
      (h.up.eq_none (List.getElem_mem hlt)).mpr (by rw [hip]; exact hb)
    have hsame : node'.vsIp = state.nodes[i].vsIp := hvs'.trans hip.symm
    have hmap := map_set_ip NodeState.vsIp node' hi hsame
    have hup := h.up.set h.nodup hi hsame
    rw [hip, hchild] at hup
    rw [startNode_some hf, Code.bind_some hmake]
    refine ⟨_, _, rfl, ⟨hsound, hheld.mpr ⟨h.held, hnone⟩, ?_, hup,
      client_set h.client (hclient.trans hchild.symm), h.calls⟩, hmap⟩
    rw [hmap]
    exact h.nodup

/-- **One request of a restart** is handled, and changes its own node only. -/
theorem Tended.process (h : Tended b state w) {q : VectorStoreClusterExt} {heard : Bool}
    (hq : OfRestart q) (hb : ∀ vsIp, touch q = some (.fill vsIp) → b vsIp = true)
    (hheard : heard = true ∨ q.told ≠ none) : ∃ state' w',
      vector_store_cluster.process (q.message heard) state w = (some state', w') ∧
        Tended (emptied touch b q) state' w' ∧
        state'.nodes.map NodeState.vsIp = state.nodes.map NodeState.vsIp := by
  cases q with
  | stopNode vsIp =>
    obtain rfl : heard = true := hheard.resolve_right fun hne => hne rfl
    obtain ⟨state', w', hd, htended, hmap⟩ := h.stopNode vsIp
    exact ⟨state', w', Code.bind_some hd, htended, hmap⟩
  | startNode nodeConfig => exact h.startNode (hb _ rfl)
  | waitForReady =>
    obtain rfl : heard = true := hheard.resolve_right fun hne => hne rfl
    obtain ⟨n, hn⟩ := waitForReady_spec state w
    have hall : w.Succeeds (asked state.nodes) := fun k _ => h.calls _
    rw [if_pos hall] at hn
    exact ⟨state, { w with calls := n }, Code.bind_some hn,
      ⟨h.sound.congr rfl rfl, h.held, h.nodup, h.up, h.client, h.calls⟩, rfl⟩
  | version | start _ | stop => exact hq.elim

/-- The cluster is ready when no node is down. -/
theorem Tended.waitForReady (h : Tended b state w) :
    ((waitForReady state w).1 = some true ↔
      state.nodes ≠ [] ∧ ∀ node ∈ state.nodes, b node.vsIp = false) ∧
    (waitForReady state w).1.isSome := by
  obtain ⟨n, hn⟩ := waitForReady_spec state w
  have hall : w.Succeeds (asked state.nodes) := fun k _ => h.calls _
  rw [if_pos hall] at hn
  rw [hn]
  refine ⟨?_, rfl⟩
  rw [Option.some.injEq, Bool.and_eq_true_iff, List.all_eq_true, Bool.not_eq_true',
    List.isEmpty_eq_false_iff]
  refine and_congr_right fun _ => forall₂_congr fun node hmem => ?_
  have hup : node.child.isSome = !b node.vsIp := h.up node hmem
  rw [h.client node hmem, hup, Bool.not_eq_true']

end Step

section Start

variable {tmpdir : Path} {nodeConfigs : List VectorStoreNodeConfig} {succeeds : Nat → Bool}
  {state : State} {w w' : Machine RunNode}

theorem pushAll_newNode {nodes nodes' : List NodeState}
    (h : pushAll (newNode (newTempDir tmpdir)) nodeConfigs nodes w = (some nodes', w')) :
    nodes'.map NodeState.vsIp =
        nodes.map NodeState.vsIp ++ nodeConfigs.map VectorStoreNodeConfig.vsIp ∧
      w'.succeeds = w.succeeds := by
  induction nodeConfigs generalizing nodes w with
  | nil =>
    cases h
    simp
  | cons c cs ih =>
    obtain ⟨node, w₁, hnode, h⟩ := Code.bind_eq_some.mp h
    obtain ⟨hmap, hs⟩ := ih h
    have hcalls : w₁.succeeds = w.succeeds := by
      obtain ⟨dir, w₂, hdir, hnode⟩ := Code.bind_eq_some.mp hnode
      obtain ⟨child, w₃, hrun, hnode⟩ := Code.bind_eq_some.mp hnode
      cases hdir
      obtain ⟨-, -, rfl⟩ := spawn_eq_some.mp hrun
      cases hnode
      rfl
    rw [hmap, hs, hcalls]
    simp [(newNode_up hnode).1]

/-- **A cluster that has just been started** is up, where its nodes have addresses of their own. -/
theorem tended_start (hd : (nodeConfigs.map VectorStoreNodeConfig.vsIp).Nodup)
    (hs : ∀ n, succeeds n = true)
    (h : start nodeConfigs (State.new tmpdir) { succeeds } = (some state, w)) :
    Tended (fun _ => false) state w := by
  have hnew : Sound (State.new tmpdir).children ({ succeeds } : Machine RunNode) := .init succeeds
  obtain ⟨hsound, hheld⟩ := start_spec nodeConfigs hnew
  rw [h] at hheld
  cases nodeConfigs with
  | nil =>
    cases h
    exact ⟨.init succeeds, .of_idle rfl, .nil, fun _ hn => absurd hn List.not_mem_nil,
      fun _ hn => absurd hn List.not_mem_nil, hs⟩
  | cons first rest =>
    obtain ⟨nodes, w₁, hpush, hstate⟩ := Code.bind_eq_some.mp h
    obtain ⟨hmap, hcalls⟩ := pushAll_newNode hpush
    have hup : ∀ node ∈ nodes, node.child.isSome ∧ node.client.isSome := forall_pushAll
      (fun _ _ _ _ hnode => (newNode_up hnode).2) (fun _ hn => absurd hn List.not_mem_nil) hpush
    cases hstate
    refine ⟨hsound _ _ h, hheld.mpr ⟨.of_idle rfl, Or.inl fun k _ => hs _⟩, ?_,
      fun node hn => (hup node hn).1, fun node hn => (hup node hn).2.trans (hup node hn).1.symm,
      fun n => ?_⟩
    · rw [hmap]
      exact hd
    · rw [hcalls]
      exact hs n

end Start

/-- `restart`, and then the rest of the client: `assert!(self.wait_for_ready().await)`. -/
def restart (nodeConfig : VectorStoreNodeConfig)
    (rest : Client VectorStoreClusterExt VectorStoreClusterExt.Reply) :
    Client VectorStoreClusterExt VectorStoreClusterExt.Reply :=
  round (.stopNode nodeConfig.vsIp) (.startNode nodeConfig) .waitForReady (fun ready => ready) rest

/-- Some restarts, one after the other. -/
def restarts :
    List VectorStoreNodeConfig → Client VectorStoreClusterExt VectorStoreClusterExt.Reply
  | [] => .done
  | nodeConfig :: nodeConfigs => restart nodeConfig (restarts nodeConfigs)

theorem restarts_eq (nodeConfigs : List VectorStoreNodeConfig) : restarts nodeConfigs =
    roundsOf (fun c => .stopNode c.vsIp) .startNode .waitForReady (fun ready => ready)
      nodeConfigs := by
  induction nodeConfigs with
  | nil => rfl
  | cons c cs ih =>
    rw [restarts, restart, ih]
    rfl

section Clients

variable {ι : Type} [DecidableEq ι] {owner : Ipv4Addr → ι} {cap : Nat}
  {nodeConfigs : ι → List VectorStoreNodeConfig} {version : Str} {state : State}
  {w : Machine RunNode} {t : List (Label ι VectorStoreClusterExt VectorStoreClusterExt.Reply)}
  {x : Net ι VectorStoreClusterExt VectorStoreClusterExt.Reply State (Machine RunNode)}

omit [DecidableEq ι] in
theorem rounds_restarts (hown : ∀ i, ∀ c ∈ nodeConfigs i, owner c.vsIp = i) :
    Rounds touch owner (fun c : VectorStoreNodeConfig => .stopNode c.vsIp) .startNode .waitForReady
      VectorStoreNodeConfig.vsIp nodeConfigs fun i => restarts (nodeConfigs i) where
  empties _ := rfl
  fills _ := rfl
  asks := rfl
  own := hown
  makes i := by
    rw [restarts_eq]
    exact makes_roundsOf (nodeConfigs i)

/-- The node of the address is down: its client has stopped it, and not started it again yet. -/
def Down (owner : Ipv4Addr → ι)
    (t : List (Label ι VectorStoreClusterExt VectorStoreClusterExt.Reply)) (vsIp : Ipv4Addr) : Prop :=
  (requestsOf (owner vsIp) (served t)).getLast? = some (.stopNode vsIp)

omit [DecidableEq ι] in
/-- The cluster is tended when the requests of restarts are handled. -/
theorem handles_restarts (places : List Ipv4Addr) : Handles (ι := ι) (service version)
    (fun l => Turns touch (fun _ => false) (l.map Prod.snd) ∧ ∀ m ∈ l, OfRestart m.2)
    (fun l state w => Tended ((l.map Prod.snd).foldl (emptied touch) fun _ => false) state w ∧
      state.nodes.map NodeState.vsIp = places) False := by
  rintro done i q heard state w ⟨hturns, hof⟩ ⟨htended, hplaces⟩ hheard
  rw [List.map_append, List.map_singleton, turns_snoc] at hturns
  refine Or.inl ?_
  obtain ⟨state', w', hp, htended', hsame⟩ := htended.process
    (hof (i, q) (List.mem_append_right _ List.mem_cons_self)) hturns.2
    (hheard.imp_right fun h => h.resolve_right id)
  refine ⟨state', _, w', process_serviceOf_some.mpr ⟨hp, rfl⟩, ?_, hsame.trans hplaces⟩
  rw [List.map_append, List.foldl_append]
  exact htended'

variable (hown : ∀ i, ∀ c ∈ nodeConfigs i, owner c.vsIp = i)
  (hw : Tended (fun _ => false) state w)
  (h : Run (service version) cap (Channel.start (fun i => restarts (nodeConfigs i)) state w) t x)
  (hcancel : ∀ i, .cancel i ∉ t)

include hown hw h hcancel

theorem healthy_restarts : Healthy (service version)
      (fun l state' w => Tended ((l.map Prod.snd).foldl (emptied touch) fun _ => false) state' w ∧
        state'.nodes.map NodeState.vsIp = state.nodes.map NodeState.vsIp) t x ∧
    ∀ i, .fail i ∉ t := by
  have hr := rounds_restarts hown
  refine (all_served (handles_restarts _) ⟨hw, rfl⟩ h (fun l hl => ⟨hr.turns h hl, fun m hm => ?_⟩)
    (Or.inr hcancel)).imp_right And.left
  rcases hr.mem_sent h (hl.subset hm) with ⟨c, hc⟩ | ⟨c, hc⟩ | hc <;> rw [hc] <;> trivial

omit hw hcancel in
theorem empty_iff_down (vsIp : Ipv4Addr) :
    ((served t).map Prod.snd).foldl (emptied touch) (fun _ => false) vsIp = true ↔
      Down owner t vsIp := by
  rw [(rounds_restarts hown).empty_iff h]
  constructor
  · rintro ⟨c, hc, hlast⟩
    rwa [hc] at hlast
  · exact fun hlast => ⟨{ vsIp, dbIp := vsIp }, rfl, hlast⟩

/-- **A wait ends well** exactly when no other client is in the middle of a restart. -/
theorem ready_iff {i : ι} {ready : Bool} {pre : List (Label ι VectorStoreClusterExt _)}
    (hpre : pre ++ [.answer i ⟨.waitForReady, ready⟩] <+: t) :
    ready = true ↔ state.nodes ≠ [] ∧
      ∀ node ∈ state.nodes, owner node.vsIp ≠ i → ¬ Down owner pre node.vsIp := by
  obtain ⟨rest, rfl⟩ := hpre
  obtain ⟨z, hanswered, -⟩ := h.split
  obtain ⟨y, hrun, hs⟩ := run_snoc.mp hanswered
  obtain ⟨hhealthy, -⟩ := healthy_restarts hown hw hrun fun j hj => hcancel j (by simp [hj])
  cases hs with
  | @answer _ _ _ s s' _ w' ha _ _ hp =>
    obtain ⟨htended, hplaces⟩ := hhealthy.state (s := s) (by rw [ha]; rfl)
    obtain ⟨hready, hsome⟩ := htended.waitForReady
    have hreply : ready = (waitForReady s y.world).1.getD false := (process_serviceOf_some.mp hp).2
    obtain ⟨b, hb⟩ := Option.isSome_iff_exists.mp hsome
    rw [hb, Option.some.injEq] at hready
    rw [hreply, hb, Option.getD_some, hready]
    have hempty : s.nodes = [] ↔ state.nodes = [] := by
      rw [← List.map_eq_nil_iff (f := NodeState.vsIp), hplaces, List.map_eq_nil_iff]
    refine and_congr (not_congr hempty) ((forall_ip_iff hplaces fun vsIp => _ = false).trans ?_)
    refine forall₂_congr fun node _ => ?_
    rw [← Bool.not_eq_true, empty_iff_down hown hrun]
    refine ⟨fun hno _ => hno, fun hno hdown => ?_⟩
    by_cases hi : owner node.vsIp = i
    · have hfull := (rounds_restarts hown).full hrun ha hi
      rw [(empty_iff_down hown hrun _).mpr hdown] at hfull
      cases hfull
    · exact hno hi hdown

/-- **Nodes that are restarted by different clients**, at any time, all up and with distinct
addresses when the clients begin: no process is ever orphaned, no client fails, and a node is down
just while its own client is between `stop_node` and `start_node`. A wait ends well exactly when no
other client is there, and a client panics only when one did not. -/
theorem nodes_restarted : (∀ i, .fail i ∉ t) ∧
    (∀ state', x.actor.state = some state' → Owned (some state') x.world ∧
      ∀ node ∈ state'.nodes, node.child = none ↔ Down owner t node.vsIp) ∧
    (∀ i ready pre, pre ++ [.answer i ⟨.waitForReady, ready⟩] <+: t → (ready = true ↔
      state.nodes ≠ [] ∧ ∀ node ∈ state.nodes, owner node.vsIp ≠ i → ¬ Down owner pre node.vsIp)) ∧
    (∀ i, .panic i ∈ t → ∃ pre, pre ++ [.answer i ⟨.waitForReady, false⟩] <+: t) ∧
    (x.actor.isOpen = false → x.world.running = ∅) := by
  obtain ⟨hhealthy, hfail⟩ := healthy_restarts hown hw h hcancel
  refine ⟨hfail, fun state' ha => ⟨(hhealthy.state ha).1.held, fun node hn => ?_⟩,
    fun i ready pre => ready_iff hown hw h hcancel, fun i hi => ?_, fun ho => ?_⟩
  · rw [← empty_iff_down hown h]
    exact (hhealthy.state ha).1.up.eq_none hn
  · obtain ⟨v, hv, hpre⟩ := does_panic h hi
    rw [restarts_eq] at hv
    have hfalse : ⟨.waitForReady, false⟩ ∈ v := by
      by_contra hno
      refine not_panic hv (fun ready hm => ?_) rfl
      cases ready with
      | true => rfl
      | false => exact absurd hm hno
    obtain ⟨pre, post, rfl⟩ := List.append_of_mem
      (answer_of_returned h (i := i) rfl (hpre.subset hfalse))
    exact ⟨pre, post, by simp⟩
  · obtain ⟨s, w', ⟨htended, -⟩, hstop⟩ := hhealthy.closed ho
    rw [← hstop]
    exact stop_idle htended.sound htended.held

end Clients

/-- An entry, with its process and the number of its directory. -/
def entry (vsIp : Ipv4Addr) (child : Option Pid) (dir : Nat) : NodeState :=
  ⟨vsIp, child, child.map fun _ => ⟨vsIp, VS_PORT⟩, some ⟨"/tmp".toList, dir⟩⟩

/-- The state with these entries. -/
def withNodes (nodes : List NodeState) : State := ⟨"/tmp".toList, nodes⟩

/-- A machine that runs two nodes. -/
def pairWorld : Machine RunNode where
  started := [⟨{ vsIp := 1, dbIp := 1 }, ⟨"/tmp".toList, 0⟩⟩,
    ⟨{ vsIp := 2, dbIp := 2 }, ⟨"/tmp".toList, 1⟩⟩]
  running := {1, 0}
  tempDirs := 2
  calls := 2
  succeeds _ := true

theorem tended_pair :
    Tended (fun _ => false) (withNodes [entry 1 (some 0) 0, entry 2 (some 1) 1]) pairWorld :=
  have hips : ([⟨1, 1, none, none, []⟩, ⟨2, 2, none, none, []⟩].map
      VectorStoreNodeConfig.vsIp).Nodup := by decide
  tended_start hips (fun _ => rfl) rfl

/-- The client `true` stops its node while the other one is restarting its own, whose wait then ends
badly. -/
theorem nodes_restarted_together : ∃ t x,
    Run (service []) 10 (Channel.start (fun i : Bool =>
      restarts [if i then { vsIp := 2, dbIp := 2 } else { vsIp := 1, dbIp := 1 }])
        (withNodes [entry 1 (some 0) 0, entry 2 (some 1) 1]) pairWorld) t x ∧
    .panic false ∈ t ∧ (∀ i, .fail i ∉ t) ∧ ∀ state', x.actor.state = some state' →
      Owned (some state') x.world := by
  have h₀ : Run (service []) 10 (Channel.start (fun i : Bool =>
      restarts [if i then { vsIp := 2, dbIp := 2 } else { vsIp := 1, dbIp := 1 }])
        (withNodes [entry 1 (some 0) 0, entry 2 (some 1) 1]) pairWorld) [] _ := .refl
  have hno : ∀ {x : Net Bool VectorStoreClusterExt VectorStoreClusterExt.Reply State
      (Machine RunNode)} {i q r}, VectorStoreClusterExt.told q = some r →
      ¬ x.Awaited (service []) i q := by
    rintro x i q r hq ⟨ht, -⟩
    cases hq.symm.trans ht
  have hstop₁ : (service []).process (.stopNode 1) true
      (withNodes [entry 1 (some 0) 0, entry 2 (some 1) 1]) pairWorld =
      (some (withNodes [entry 1 none 0, entry 2 (some 1) 1], ()), pairWorld.killed 0) := rfl
  have hstop₂ : (service []).process (.stopNode 2) true
      (withNodes [entry 1 none 0, entry 2 (some 1) 1]) (pairWorld.killed 0) =
      (some (withNodes [entry 1 none 0, entry 2 none 1], ()), (pairWorld.killed 0).killed 1) := rfl
  have hstart : (service []).process (.startNode { vsIp := 1, dbIp := 1 }) false
      (withNodes [entry 1 none 0, entry 2 none 1]) ((pairWorld.killed 0).killed 1) =
      (some (withNodes [entry 1 (some 2) 2, entry 2 none 1], ()),
        (((pairWorld.killed 0).killed 1).withTempDirs 3).spawned
          ⟨{ vsIp := 1, dbIp := 1 }, ⟨"/tmp".toList, 2⟩⟩) := rfl
  have h₁ := h₀.tail (.ask (i := false) rfl rfl rfl (by decide))
  have h₂ := h₁.tail (.ask (i := true) rfl rfl rfl (by decide))
  have h₃ := h₂.tail (.take rfl rfl)
  have h₄ := h₃.tail (.answer rfl rfl rfl hstop₁)
  have h₅ := h₄.tail (.take rfl rfl)
  have h₆ := h₅.tail (.answer rfl rfl rfl hstop₂)
  have h₇ := h₆.tail (.tell (i := false) rfl rfl rfl (by decide))
  have h₈ := h₇.tail (.ask (i := false) rfl rfl rfl (by decide))
  have h₉ := h₈.tail (.take rfl rfl)
  have h₁₀ := h₉.tail (.serve rfl (hno rfl) hstart)
  have h₁₁ := h₁₀.tail (.take rfl rfl)
  have h₁₂ := h₁₁.tail (.answer (r := false) rfl rfl rfl rfl)
  have h₁₃ := h₁₂.tail (.panic (i := false) rfl)
  let owner : Ipv4Addr → Bool := fun vsIp => decide (vsIp = 2)
  have hown : ∀ i : Bool, ∀ c ∈ [if i then (⟨2, 2, none, none, []⟩ : VectorStoreNodeConfig)
      else { vsIp := 1, dbIp := 1 }], owner c.vsIp = i := by decide
  obtain ⟨hfail, howned, -⟩ := nodes_restarted hown tended_pair h₁₃ (by simp)
  exact ⟨_, _, h₁₃, by simp, hfail, fun state' ha => (howned state' ha).1⟩

end vector_store_cluster

end E2etest
