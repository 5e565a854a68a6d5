import E2etest.Async.Channel
import E2etest.Services.Dns
import E2etest.Services.Firewall
import E2etest.Services.ScyllaProxyCluster
import E2etest.Services.VectorStoreCluster

/-!
# The clients of the actors

The extension traits of the senders: each of their methods sends one message, and waits for the
answer if there is one. An inductive type has a constructor for each method, `message` is what the
method sends, and `service` the actor as its clients see it. `serve_message` connects what the
clients see of an actor to the loop over its messages.

* `abandoned_requests_fatal`: all of these actors expect their answers to be received. A client that
  is cancelled while it waits takes the actor down, whoever else uses it.
-/

namespace E2etest

open Async Os Text Channel

/-! ## Actors by their messages -/

section Message

variable {Q M σ W : Type} {R : Q → Type}

/-- An actor that handles the message of a request, and what it answers. -/
def serviceOf (message : Q → Bool → M) (process : M → σ → Code W σ) (told : ∀ q, Option (R q))
    (reply : ∀ q, σ → W → R q) (stop : σ → Code W σ) (stuck : W → Bool) : Service Q R σ W where
  told
  process q heard s := fun w =>
    match process (message q heard) s w with
    | (some s', w') => (some (s', reply q s w), w')
    | (none, w') => (none, w')
  stop
  stuck

variable {message : Q → Bool → M} {process : M → σ → Code W σ} {told : ∀ q, Option (R q)}
  {reply : ∀ q, σ → W → R q} {stop : σ → Code W σ} {stuck : W → Bool}

theorem message_serviceOf (m : Q × Bool) (s : σ) :
    Channel.message (serviceOf message process told reply stop stuck) m s =
      process (message m.1 m.2) s := by
  funext w
  obtain ⟨q, heard⟩ := m
  rcases h : process (message q heard) s w with ⟨_ | s', w'⟩
  · exact message_none (by simp only [serviceOf, h])
  · exact message_some (r := reply q s w) (by simp only [serviceOf, h])

/-- **What the clients see is the loop** over the messages of their requests. -/
theorem serve_message (ms : List (Q × Bool)) (s : σ) :
    serve (Channel.message (serviceOf message process told reply stop stuck)) ms s =
      serve process (ms.map fun m => message m.1 m.2) s := by
  induction ms generalizing s with
  | nil => rfl
  | cons m ms ih =>
    rw [List.map_cons, serve, serve, message_serviceOf]
    exact congrArg (process (message m.1 m.2) s >>= ·) (funext ih)

theorem process_serviceOf_none {q : Q} {heard : Bool} {s : σ} {w : W} :
    ((serviceOf message process told reply stop stuck).process q heard s w).1 = none ↔
      (process (message q heard) s w).1 = none := by
  rcases h : process (message q heard) s w with ⟨_ | s', w'⟩ <;> simp [serviceOf, h]

theorem process_serviceOf_none_eq {q : Q} {heard : Bool} {s : σ} {w w' : W}
    (h : process (message q heard) s w = (none, w')) :
    (serviceOf message process told reply stop stuck).process q heard s w = (none, w') := by
  simp only [serviceOf, h]

theorem process_serviceOf_some {q : Q} {heard : Bool} {s s' : σ} {r : R q} {w w' : W} :
    (serviceOf message process told reply stop stuck).process q heard s w = (some (s', r), w') ↔
      process (message q heard) s w = (some s', w') ∧ r = reply q s w := by
  rcases h : process (message q heard) s w with ⟨_ | s₁, w₁⟩
  · simp [serviceOf, h]
  · simp only [serviceOf, h, Prod.mk.injEq, Option.some.injEq]
    constructor
    · rintro ⟨⟨rfl, rfl⟩, rfl⟩
      exact ⟨⟨rfl, rfl⟩, rfl⟩
    · rintro ⟨⟨rfl, rfl⟩, rfl⟩
      exact ⟨⟨rfl, rfl⟩, rfl⟩

theorem process_serviceOf_crash {q : Q} {heard : Bool} {s : σ} {w w' : W}
    (h : (serviceOf message process told reply stop stuck).process q heard s w = (none, w')) :
    process (message q heard) s w = (none, w') := by
  rcases hp : process (message q heard) s w with ⟨_ | s₁, w₁⟩
  · simp only [serviceOf, hp, Prod.mk.injEq, true_and] at h
    rw [h]
  · simp [serviceOf, hp] at h

/-- An actor that panics when the answer is not received. -/
theorem strict_serviceOf
    (h : ∀ q s w, told q = none → (process (message q false) s w).1 = none) :
    Strict (serviceOf message process told reply stop stuck) :=
  fun q s w hq => process_serviceOf_none.mpr (h q s w hq)

end Message

/-- Code that ends by sending an answer nobody receives. -/
theorem ensure_false_none {W α β : Type} (x : Code W α) (k : α → β) (w : W) :
    ((do
      let a ← x
      Code.ensure false
      return k a : Code W β) w).1 = none := by
  rcases h : x w with ⟨_ | a, w'⟩
  · rw [Code.bind_none h]
  · rw [Code.bind_some h]
    rfl

namespace dns

/-- `DnsExt`. -/
inductive DnsExt
  | version
  | domain
  | remove (name : Str)
  | upsert (name : Str) (ip : Ipv4Addr)
  deriving DecidableEq, Repr

namespace DnsExt

/-- The message that is sent. -/
def message : DnsExt → Bool → Dns
  | .version, tx => .version tx
  | .domain, tx => .domain tx
  | .remove name, _ => .remove name
  | .upsert name ip, _ => .upsert name ip

/-- What a method returns. -/
def Reply : DnsExt → Type
  | .version | .domain => Str
  | .remove _ | .upsert _ _ => Unit

/-- `remove` and `upsert` do not wait. -/
def told : ∀ q, Option (Reply q)
  | .version | .domain => none
  | .remove _ | .upsert _ _ => some ()

end DnsExt

/-- The actor, where `version` is that of `hickory`. The domain is the zone without its last dot. -/
def service (H : Hickory) (overflowChecks : Bool) (version : Str) :
    Service DnsExt DnsExt.Reply (State H) Unit :=
  serviceOf DnsExt.message (process H overflowChecks) DnsExt.told
    (fun q _ _ => match q with
      | .version => version
      | .domain => ZONE.dropLast
      | .remove _ | .upsert _ _ => ())
    pure fun _ => false

theorem strict_service (H : Hickory) (overflowChecks : Bool) (version : Str) :
    Strict (service H overflowChecks version) := by
  refine strict_serviceOf fun q s w hq => ?_
  cases q with
  | version | domain => rfl
  | remove name | upsert name ip => cases hq

end dns

namespace firewall

/-- `FirewallExt`. -/
inductive FirewallExt
  | dropTraffic (ips : List Ipv4Addr)
  | turnOffRules
  deriving DecidableEq, Repr

/-- The message that is sent. -/
def FirewallExt.message : FirewallExt → Bool → Firewall
  | .dropTraffic ips, tx => .dropTraffic ips tx
  | .turnOffRules, tx => .turnOffRules tx

/-- The actor. -/
def service : Service FirewallExt (fun _ => Unit) (List Ipv4Addr) Netlink :=
  serviceOf FirewallExt.message process (fun _ => none) (fun _ _ _ => ()) pure fun _ => false

theorem strict_service : Strict service := by
  refine strict_serviceOf fun q s w _ => ?_
  cases q with
  | dropTraffic ips =>
    obtain ⟨k, hk, -⟩ := process_dropTraffic ips s false w
    change (process (.dropTraffic ips false) s w).1 = none
    rw [hk]
    rfl
  | turnOffRules =>
    obtain ⟨k, hk, -⟩ := process_turnOffRules s false w
    change (process (.turnOffRules false) s w).1 = none
    rw [hk]
    rfl

end firewall

namespace scylla_proxy_cluster

section

variable (RequestRule ResponseRule : Type) {RunningNode : Type}

/-- `ScyllaProxyClusterExt`. -/
inductive ScyllaProxyClusterExt
  | start (nodeConfigs : List ScyllaProxyNodeConfig)
  | stop
  | changeRequestRules (rules : Option (List RequestRule))
  | changeResponseRules (rules : Option (List ResponseRule))
  | turnOffRules

variable {RequestRule ResponseRule}

namespace ScyllaProxyClusterExt

/-- The message that is sent. -/
def message : ScyllaProxyClusterExt RequestRule ResponseRule → Bool →
    ScyllaProxyCluster RequestRule ResponseRule
  | .start nodeConfigs, tx => .start nodeConfigs tx
  | .stop, tx => .stop tx
  | .changeRequestRules rules, tx => .changeRequestRules rules tx
  | .changeResponseRules rules, tx => .changeResponseRules rules tx
  | .turnOffRules, tx => .turnOffRules tx

/-- What a method returns. -/
def Reply : ScyllaProxyClusterExt RequestRule ResponseRule → Type
  | .start _ => AddrMap
  | .stop | .changeRequestRules _ | .changeResponseRules _ | .turnOffRules => Unit

end ScyllaProxyClusterExt

/-- The actor. -/
def service (lib : ScyllaProxy RequestRule ResponseRule RunningNode) :
    Service (ScyllaProxyClusterExt RequestRule ResponseRule) ScyllaProxyClusterExt.Reply
      (Option (RunningProxy RunningNode)) Runs :=
  serviceOf ScyllaProxyClusterExt.message (process lib) (fun _ => none)
    (fun q proxy w => match q with
      | .start nodeConfigs => ((start lib nodeConfigs proxy w).1.map Prod.fst).getD ∅
      | .stop | .changeRequestRules _ | .changeResponseRules _ | .turnOffRules => ())
    stop fun _ => false

theorem strict_service (lib : ScyllaProxy RequestRule ResponseRule RunningNode) :
    Strict (service lib) := by
  refine strict_serviceOf fun q s w _ => ?_
  cases q with
  | start nodeConfigs => exact ensure_false_none (start lib nodeConfigs s) Prod.snd w
  | stop => exact ensure_false_none (stop s) id w
  | changeRequestRules rules | changeResponseRules rules | turnOffRules => rfl

end

end scylla_proxy_cluster

namespace scylla_cluster

/-- `ScyllaClusterExt`, less `restart`, which is made of three others. -/
inductive ScyllaClusterExt
  | version
  | start (nodeConfigs : List ScyllaNodeConfig)
  | stop
  | waitForReady
  | up (nodeConfigs : List ScyllaNodeConfig)
  | down
  | upNode (nodeConfig : ScyllaNodeConfig)
  | downNode (dbIp : Ipv4Addr)
  | flush
  deriving DecidableEq, Repr

namespace ScyllaClusterExt

/-- The message that is sent. -/
def message : ScyllaClusterExt → Bool → ScyllaCluster
  | .version, tx => .version tx
  | .start nodeConfigs, _ => .start nodeConfigs
  | .stop, tx => .stop tx
  | .waitForReady, tx => .waitForReady tx
  | .up nodeConfigs, _ => .up nodeConfigs
  | .down, tx => .down tx
  | .upNode nodeConfig, _ => .upNode nodeConfig
  | .downNode dbIp, tx => .downNode dbIp tx
  | .flush, tx => .flush tx

/-- What a method returns. -/
def Reply : ScyllaClusterExt → Type
  | .version => Str
  | .waitForReady => Bool
  | .start _ | .stop | .up _ | .down | .upNode _ | .downNode _ | .flush => Unit

/-- `start`, `up` and `up_node` do not wait. -/
def told : ∀ q, Option (Reply q)
  | .start _ | .up _ | .upNode _ => some ()
  | .version | .stop | .waitForReady | .down | .downNode _ | .flush => none

end ScyllaClusterExt

/-- The actor, where `version` is what the executable prints. -/
def service (version : Str) :
    Service ScyllaClusterExt ScyllaClusterExt.Reply State (Machine RunNode) :=
  serviceOf ScyllaClusterExt.message process ScyllaClusterExt.told
    (fun q state w => match q with
      | .version => version
      | .waitForReady => (waitForReady state w).1.getD false
      | .start _ | .stop | .up _ | .down | .upNode _ | .downNode _ | .flush => ())
    stop Machine.stuck

theorem strict_service (version : Str) : Strict (service version) := by
  refine strict_serviceOf fun q s w hq => ?_
  cases q with
  | version => rfl
  | stop => exact ensure_false_none (stop s) id w
  | waitForReady => exact ensure_false_none (waitForReady s) (fun _ => s) w
  | down => exact ensure_false_none (down s) id w
  | downNode dbIp => exact ensure_false_none (downNode s dbIp) id w
  | flush => exact ensure_false_none (flush s) (fun _ => s) w
  | start nodeConfigs | up nodeConfigs | upNode nodeConfig => cases hq

end scylla_cluster

namespace vector_store_cluster

/-- `VectorStoreClusterExt`, less `restart`, which is made of three others. -/
inductive VectorStoreClusterExt
  | version
  | start (nodeConfigs : List VectorStoreNodeConfig)
  | startNode (nodeConfig : VectorStoreNodeConfig)
  | stop
  | stopNode (vsIp : Ipv4Addr)
  | waitForReady
  deriving DecidableEq, Repr

namespace VectorStoreClusterExt

/-- The message that is sent. -/
def message : VectorStoreClusterExt → Bool → VectorStoreCluster
  | .version, tx => .version tx
  | .start nodeConfigs, _ => .start nodeConfigs
  | .startNode nodeConfig, _ => .startNode nodeConfig
  | .stop, tx => .stop tx
  | .stopNode vsIp, tx => .stopNode vsIp tx
  | .waitForReady, tx => .waitForReady tx

/-- What a method returns. -/
def Reply : VectorStoreClusterExt → Type
  | .version => Str
  | .waitForReady => Bool
  | .start _ | .startNode _ | .stop | .stopNode _ => Unit

/-- `start` and `start_node` do not wait. -/
def told : ∀ q, Option (Reply q)
  | .start _ | .startNode _ => some ()
  | .version | .stop | .stopNode _ | .waitForReady => none

end VectorStoreClusterExt

/-- The actor, where `version` is what the executable prints. -/
def service (version : Str) :
    Service VectorStoreClusterExt VectorStoreClusterExt.Reply State (Machine RunNode) :=
  serviceOf VectorStoreClusterExt.message process VectorStoreClusterExt.told
    (fun q state w => match q with
      | .version => version
      | .waitForReady => (waitForReady state w).1.getD false
      | .start _ | .startNode _ | .stop | .stopNode _ => ())
    stop fun _ => false

theorem strict_service (version : Str) : Strict (service version) := by
  refine strict_serviceOf fun q s w hq => ?_
  cases q with
  | version => rfl
  | stop => exact ensure_false_none (stop s) id w
  | stopNode vsIp => exact ensure_false_none (stopNode s vsIp) id w
  | waitForReady => exact ensure_false_none (waitForReady s) (fun _ => s) w
  | start nodeConfigs | startNode nodeConfig => cases hq

end vector_store_cluster

/-- **An abandoned request is fatal** to each of the actors that answer: a client that is cancelled
while it waits takes the actor down, and what was sent after its request is never handled. -/
theorem abandoned_requests_fatal {RequestRule ResponseRule RunningNode : Type}
    (lib : scylla_proxy_cluster.ScyllaProxy RequestRule ResponseRule RunningNode) (H : dns.Hickory)
    (overflowChecks : Bool) (version : Str) :
    AbandonedFatal (dns.service H overflowChecks version) ∧ AbandonedFatal firewall.service ∧
      AbandonedFatal (scylla_proxy_cluster.service lib) ∧
      AbandonedFatal (scylla_cluster.service version) ∧
      AbandonedFatal (vector_store_cluster.service version) :=
  ⟨(dns.strict_service H overflowChecks version).abandonedFatal,
    firewall.strict_service.abandonedFatal, (scylla_proxy_cluster.strict_service lib).abandonedFatal,
    (scylla_cluster.strict_service version).abandonedFatal,
    (vector_store_cluster.strict_service version).abandonedFatal⟩

/-- Each client drops the traffic to an address of its own. -/
def droppers (i : Bool) : Client firewall.FirewallExt fun _ => Unit :=
  .call (.dropTraffic [if i then 2 else 1]) fun _ => .done

/-- The client `false` is cancelled while it waits for its answer, and `true` fails with it. -/
theorem abandoned_requests_fatal_firewall : ∃ t x y u z,
    Run firewall.service 10 (Channel.start droppers [] (firewall.start fun _ => true)) t x ∧
    Step firewall.service 10 x (.cancel false) y ∧ Run firewall.service 10 y u z ∧
    .fail true ∈ u ∧ z.Through ∧ z.actor = .dead := by
  have hwaiting : ¬ (Status.waiting (.dropTraffic [1]) fun _ => .done :
      Status firewall.FirewallExt fun _ => Unit).Finished := by
    rintro (h | h) <;> cases h
  have hcancel : ∀ {t x}, Run firewall.service 10 (Channel.start droppers []
      (firewall.start fun _ => true)) t x → ¬ (x.clients false).Finished →
      Step firewall.service 10 x (.cancel false) (x.setClient false .gone) := fun _ h => .cancel h
  have hfrom : ∀ {x y} {l : Label Bool firewall.FirewallExt fun _ => Unit},
      Step firewall.service 10 x l y → Run firewall.service 10 y [] y := fun _ => .refl
  have h₀ : Run firewall.service 10
      (Channel.start droppers [] (firewall.start fun _ => true)) [] _ := .refl
  have h₁ := h₀.tail (.ask (i := false) rfl rfl rfl (by decide))
  have h₂ := h₁.tail (.ask (i := true) rfl rfl rfl (by decide))
  have hy := hcancel h₂ hwaiting
  have h₃ := (hfrom hy).tail (.take rfl rfl)
  have hp : firewall.service.process (.dropTraffic [1]) false [] (firewall.start fun _ => true) =
      (none, { routes := {1}, requests := 1, succeeds := fun _ => true }) := rfl
  have h₄ := h₃.tail (.crash rfl (by
    refine ⟨nofun, ?_⟩
    rintro ⟨-, k, hk⟩
    cases hk) hp rfl)
  have h₅ := h₄.tail (.lose (i := true) rfl rfl)
  obtain ⟨ahead, behind, -, -, hdead⟩ :=
    (abandoned_requests_fatal scylla_proxy_cluster.plain dns.simple true []).2.1 Bool 10 _ _ _ _ _
      h₂ false _ _ rfl rfl _ _ _ hy h₅
  refine ⟨_, _, _, _, _, h₂, hy, h₅, by simp, ?through, hdead ?through⟩
  refine ⟨rfl, fun i => Or.inr ?_⟩
  cases i <;> rfl

end E2etest
