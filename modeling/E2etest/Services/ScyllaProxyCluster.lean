import E2etest.Async.Actor
import Mathlib.Data.Finmap

/-!
# The ScyllaDB proxy manager (`e2etest-scylla-proxy-cluster`)

The actor holds at most one running proxy. The proxy is made and run by the library `scylla_proxy`,
which is a parameter here (`ScyllaProxy`), and whether it runs is open (`succeeds`).

`reply_matches_iff`: when the addresses `Start` answers with are those of the proxy that is held from
then on. An empty list of nodes leaves the proxy that was running, and is answered by no addresses; a
proxy that fails to run is answered by its addresses.
-/

namespace E2etest

open Async

/-- `ScyllaProxyNodeConfig`. -/
structure ScyllaProxyNodeConfig where
  realAddr : BitVec 32
  proxyAddr : BitVec 32
  deriving DecidableEq, Repr

namespace scylla_proxy_cluster

/-- `DEFAULT_SCYLLA_CQL_PORT`. -/
def DEFAULT_SCYLLA_CQL_PORT : UInt16 := 9042

/-- `SocketAddr`. -/
abbrev SocketAddr := BitVec 32 × UInt16

/-- `HashMap<SocketAddr, SocketAddr>`. -/
abbrev AddrMap := Finmap fun _ : SocketAddr => SocketAddr

/-- `scylla_proxy::ShardAwareness`, as far as it is used. -/
inductive ShardAwareness
  | queryNode
  deriving DecidableEq, Repr

/-- `scylla_proxy::Node`. -/
structure Node where
  realAddress : SocketAddr
  proxyAddress : SocketAddr
  shardAwareness : ShardAwareness
  deriving DecidableEq, Repr

/-- `scylla_proxy::Proxy`: the nodes it was made of. -/
structure Proxy where
  nodes : List Node
  deriving DecidableEq, Repr

/-- What `scylla_proxy` does: the addresses a proxy translates, the nodes it runs, and the change of
their rules. -/
structure ScyllaProxy (RequestRule ResponseRule RunningNode : Type) where
  translationMap : Proxy → AddrMap
  runningNodes : Proxy → List RunningNode
  changeRequestRules : Option (List RequestRule) → RunningNode → RunningNode
  changeResponseRules : Option (List ResponseRule) → RunningNode → RunningNode
  turnOffRules : List RunningNode → List RunningNode

/-- `scylla_proxy::RunningProxy`: the proxy that runs, and its nodes. -/
structure RunningProxy (RunningNode : Type) where
  proxy : Proxy
  runningNodes : List RunningNode

/-- Which calls of `Proxy::run` succeed, and how many there were. -/
structure Runs where
  calls : Nat := 0
  succeeds : Nat → Bool

section Actor

variable {RequestRule ResponseRule RunningNode : Type}

/-- `ScyllaProxyCluster`. The flags `tx` say that the answer is still waited for. -/
inductive ScyllaProxyCluster (RequestRule ResponseRule : Type)
  | start (nodeConfigs : List ScyllaProxyNodeConfig) (tx : Bool)
  | stop (tx : Bool)
  | changeRequestRules (rules : Option (List RequestRule)) (tx : Bool)
  | changeResponseRules (rules : Option (List ResponseRule)) (tx : Bool)
  | turnOffRules (tx : Bool)

variable (lib : ScyllaProxy RequestRule ResponseRule RunningNode)

/-- The handle that `Proxy::run` returns, where it succeeds. -/
def ran (proxy : Proxy) (w : Runs) : Option (RunningProxy RunningNode) :=
  if w.succeeds w.calls then some ⟨proxy, lib.runningNodes proxy⟩ else none

/-- `Proxy::run`. -/
def run (proxy : Proxy) : Code Runs (Option (RunningProxy RunningNode)) := fun w =>
  (some (ran lib proxy w), { w with calls := w.calls + 1 })

/-- `stop`. An error of `finish` is only logged. -/
def stop (_proxy : Option (RunningProxy RunningNode)) :
    Code Runs (Option (RunningProxy RunningNode)) := return none

/-- The node that `start` builds for a configuration. -/
def node (cfg : ScyllaProxyNodeConfig) : Node where
  realAddress := (cfg.realAddr, DEFAULT_SCYLLA_CQL_PORT)
  proxyAddress := (cfg.proxyAddr, DEFAULT_SCYLLA_CQL_PORT)
  shardAwareness := .queryNode

/-- `start`: the answer, and the proxy that is held from then on. -/
def start (nodeConfigs : List ScyllaProxyNodeConfig)
    (runningProxy : Option (RunningProxy RunningNode)) :
    Code Runs (AddrMap × Option (RunningProxy RunningNode)) :=
  if nodeConfigs.isEmpty then return (∅, runningProxy)
  else do
    let _ ← stop runningProxy
    let proxy : Proxy := ⟨nodeConfigs.map node⟩
    let translationMap := lib.translationMap proxy
    let runningProxy ← run lib proxy
    return (translationMap, runningProxy)

/-- `change_request_rules`. -/
def changeRequestRules (rules : Option (List RequestRule))
    (proxy : Option (RunningProxy RunningNode)) : Option (RunningProxy RunningNode) :=
  proxy.map fun proxy =>
    { proxy with runningNodes := proxy.runningNodes.map (lib.changeRequestRules rules) }

/-- `change_response_rules`. -/
def changeResponseRules (rules : Option (List ResponseRule))
    (proxy : Option (RunningProxy RunningNode)) : Option (RunningProxy RunningNode) :=
  proxy.map fun proxy =>
    { proxy with runningNodes := proxy.runningNodes.map (lib.changeResponseRules rules) }

/-- `turn_off_rules`. -/
def turnOffRules (proxy : Option (RunningProxy RunningNode)) :
    Option (RunningProxy RunningNode) :=
  proxy.map fun proxy => { proxy with runningNodes := lib.turnOffRules proxy.runningNodes }

/-- `process`. -/
def process : ScyllaProxyCluster RequestRule ResponseRule → Option (RunningProxy RunningNode) →
    Code Runs (Option (RunningProxy RunningNode))
  | .start nodeConfigs tx, proxy => do
    let (_, proxy) ← start lib nodeConfigs proxy
    Code.ensure tx
    return proxy
  | .stop tx, proxy => do
    let proxy ← stop proxy
    Code.ensure tx
    return proxy
  | .changeRequestRules rules tx, proxy => do
    let proxy := changeRequestRules lib rules proxy
    Code.ensure tx
    return proxy
  | .changeResponseRules rules tx, proxy => do
    let proxy := changeResponseRules lib rules proxy
    Code.ensure tx
    return proxy
  | .turnOffRules tx, proxy => do
    let proxy := turnOffRules lib proxy
    Code.ensure tx
    return proxy

/-! ## The answer to `Start` -/

/-- The addresses of the proxy that is held, and none where none is. -/
def heldMap : Option (RunningProxy RunningNode) → AddrMap
  | some running => lib.translationMap running.proxy
  | none => ∅

/-- A `Start` that is answered is answered by the addresses of the proxy that is held from then on. -/
def Matches : ScyllaProxyCluster RequestRule ResponseRule → Option (RunningProxy RunningNode) →
    Runs → Prop
  | .start nodeConfigs true, proxy, w => ∃ proxy' w',
    start lib nodeConfigs proxy w = (some (heldMap lib proxy', proxy'), w') ∧
      process lib (.start nodeConfigs true) proxy w = (some proxy', w')
  | _, _, _ => True

/-- A `Start` without nodes finds no proxy that has addresses, and one with nodes makes a proxy that
runs, or has no addresses; but for a `Start` whose answer nobody waits for. -/
def Runnable : ScyllaProxyCluster RequestRule ResponseRule → Option (RunningProxy RunningNode) →
    Runs → Prop
  | .start nodeConfigs true, proxy, w =>
    if nodeConfigs = [] then heldMap lib proxy = ∅
    else w.succeeds w.calls = true ∨ lib.translationMap ⟨nodeConfigs.map node⟩ = ∅
  | _, _, _ => True

variable {lib} {proxy proxy' : Option (RunningProxy RunningNode)} {w w' : Runs}

theorem start_nil : start lib [] proxy w = (some (∅, proxy), w) := rfl

theorem start_of_ne_nil {nodeConfigs : List ScyllaProxyNodeConfig} (h : nodeConfigs ≠ []) :
    start lib nodeConfigs proxy w =
      (some (lib.translationMap ⟨nodeConfigs.map node⟩, ran lib ⟨nodeConfigs.map node⟩ w),
        { w with calls := w.calls + 1 }) := by
  have hempty : nodeConfigs.isEmpty = false := List.isEmpty_eq_false_iff.mpr h
  unfold start
  rw [hempty]
  rfl

/-- The addresses are those of the handle when the proxy runs, or has none. -/
theorem translationMap_eq_iff (made : Proxy) :
    lib.translationMap made = heldMap lib (ran lib made w) ↔
      w.succeeds w.calls = true ∨ lib.translationMap made = ∅ := by
  unfold ran
  cases w.succeeds w.calls with
  | true => exact iff_of_true rfl (Or.inl rfl)
  | false => exact (or_iff_right Bool.false_ne_true).symm

/-- `Start` is answered by the first of what `start` returns, and the second is held. -/
theorem matches_start_iff {nodeConfigs : List ScyllaProxyNodeConfig} {reply : AddrMap}
    (h : start lib nodeConfigs proxy w = (some (reply, proxy'), w')) :
    Matches lib (.start nodeConfigs true) proxy w ↔ reply = heldMap lib proxy' := by
  constructor
  · rintro ⟨_, _, hs, -⟩
    rw [h] at hs
    obtain ⟨hs, -⟩ := Prod.mk.inj hs
    obtain ⟨hreply, rfl⟩ := Prod.mk.inj (Option.some.inj hs)
    exact hreply
  · rintro rfl
    refine ⟨proxy', w', h, ?_⟩
    rw [process, Code.bind_some h]
    exact Code.ensure_return true proxy' w'

/-- **The condition of one message.** -/
theorem matches_iff (m : ScyllaProxyCluster RequestRule ResponseRule)
    (proxy : Option (RunningProxy RunningNode)) (w : Runs) :
    Matches lib m proxy w ↔ Runnable lib m proxy w := by
  cases m with
  | start nodeConfigs tx =>
    cases tx with
    | false => exact Iff.rfl
    | true =>
      by_cases hnil : nodeConfigs = []
      · subst hnil
        rw [matches_start_iff start_nil]
        exact eq_comm
      · rw [matches_start_iff (start_of_ne_nil hnil), translationMap_eq_iff, Runnable, if_neg hnil]
  | stop tx => exact Iff.rfl
  | changeRequestRules rules tx => exact Iff.rfl
  | changeResponseRules rules tx => exact Iff.rfl
  | turnOffRules tx => exact Iff.rfl

/-- **`Start` is answered by the addresses of the proxy that is held** exactly when a `Start` without
nodes finds none, and one with nodes makes a proxy that runs. -/
theorem reply_matches_iff (lib : ScyllaProxy RequestRule ResponseRule RunningNode)
    (ms : List (ScyllaProxyCluster RequestRule ResponseRule)) (succeeds : Nat → Bool) :
    Along (process lib) (Matches lib) ms none { succeeds } ↔
      Along (process lib) (Runnable lib) ms none { succeeds } :=
  along_congr (I := fun _ _ => True) (fun _ _ _ _ _ _ _ => trivial)
    (fun m proxy w _ => matches_iff m proxy w) trivial

end Actor

/-- A library that translates the real addresses of the nodes to their proxy addresses. -/
def plain : ScyllaProxy Unit Unit Node where
  translationMap proxy := (proxy.nodes.map fun node => ⟨node.realAddress, node.proxyAddress⟩).toFinmap
  runningNodes proxy := proxy.nodes
  changeRequestRules _ node := node
  changeResponseRules _ node := node
  turnOffRules nodes := nodes

/-- **A `Start` without nodes says nothing of the proxy that runs**, and one whose proxy does not run
is answered by its addresses. -/
theorem reply_misleads :
    ¬ Along (process plain) (Matches plain)
      [.start [{ realAddr := 1, proxyAddr := 2 }] true, .start [] true] none
        { succeeds := fun _ => true } ∧
    ¬ Along (process plain) (Matches plain) [.start [{ realAddr := 1, proxyAddr := 2 }] true] none
      { succeeds := fun _ => false } := by
  constructor
  · rintro ⟨-, ⟨proxy', w', hs, -⟩, -⟩
    obtain ⟨hs, -⟩ := Prod.mk.inj hs
    obtain ⟨hmap, rfl⟩ := Prod.mk.inj (Option.some.inj hs)
    exact absurd hmap (by decide)
  · rintro ⟨⟨proxy', w', hs, -⟩, -⟩
    obtain ⟨hs, -⟩ := Prod.mk.inj hs
    obtain ⟨hmap, rfl⟩ := Prod.mk.inj (Option.some.inj hs)
    exact absurd hmap (by decide)

end scylla_proxy_cluster

end E2etest
