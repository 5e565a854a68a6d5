import E2etest.Os.Process
import Mathlib.Data.Finset.Lattice.Lemmas

/-!
# The firewall (`e2etest-firewall`)

The actor adds blackhole routes for the addresses of a `DropTraffic`, and remembers them in
`disabled_ips` to remove them at the next message. Requests to the kernel may fail; failures are
logged, and listing the routes only logs them too.

`routes_known_iff`: when the routes installed are among `disabled_ips` at every message boundary,
and gone when the loop of the actor ends. A removal that fails is forgotten with the list it was in,
and the loop ends without a removal.

`routes_exact`: when the requests that change the routes succeed, the routes are those of the last
message at the moment it is answered, whatever the lists of addresses share or repeat.
-/

namespace E2etest

open Async Os

/-- The kernel's side of the `NlRouter`: the blackhole routes installed, the number of requests made
to add or remove one, and which requests succeed. -/
structure Netlink where
  routes : Finset Ipv4Addr := ∅
  requests : Nat := 0
  succeeds : Nat → Bool

/-- `Firewall`. The flag `tx` says that the answer is still waited for. -/
inductive Firewall
  | dropTraffic (ips : List Ipv4Addr) (tx : Bool)
  | turnOffRules (tx : Bool)
  deriving DecidableEq, Repr

namespace Netlink

/-- The kernel after a request that changes the routes by `f` if it succeeds. -/
def request (f : Finset Ipv4Addr → Finset Ipv4Addr) (k : Netlink) : Netlink :=
  { k with
    routes := if k.succeeds k.requests then f k.routes else k.routes
    requests := k.requests + 1 }

/-- Where the request changes the routes, it succeeds. -/
def Heard (k : Netlink) (f : Finset Ipv4Addr → Finset Ipv4Addr) : Prop :=
  f k.routes ≠ k.routes → k.succeeds k.requests = true

/-- A request without an effect may fail. -/
theorem Heard.routes_request {f : Finset Ipv4Addr → Finset Ipv4Addr} {k : Netlink}
    (h : k.Heard f) : (k.request f).routes = f k.routes := by
  unfold request
  split
  · rfl
  · by_contra hne
    exact absurd (h (Ne.symm hne)) ‹_›

end Netlink

namespace firewall

/-- `add_unreachable_route`. -/
def addUnreachableRoute (ip : Ipv4Addr) : Code Netlink Bool := fun k =>
  (some (k.succeeds k.requests), k.request (insert ip))

/-- `remove_unreachable_route`. -/
def removeUnreachableRoute (ip : Ipv4Addr) : Code Netlink Bool := fun k =>
  (some (k.succeeds k.requests), k.request fun routes => routes.erase ip)

/-- `drop_traffic`. -/
def dropTraffic : List Ipv4Addr → Code Netlink Unit
  | [] => pure ()
  | ip :: ips => do
    let _ ← addUnreachableRoute ip
    dropTraffic ips

/-- `turn_off_rules`. -/
def turnOffRules : List Ipv4Addr → Code Netlink Unit
  | [] => pure ()
  | ip :: ips => do
    let _ ← removeUnreachableRoute ip
    turnOffRules ips

/-- `process`. -/
def process : Firewall → List Ipv4Addr → Code Netlink (List Ipv4Addr)
  | .dropTraffic ips tx, disabledIps => do
    turnOffRules disabledIps
    dropTraffic ips
    Code.ensure tx
    return ips
  | .turnOffRules tx, disabledIps => do
    turnOffRules disabledIps
    Code.ensure tx
    return []

/-- The kernel before the actor starts. -/
def start (succeeds : Nat → Bool) : Netlink := { succeeds }

/-! ## What a message leaves -/

/-- Some request for `ip` succeeds, of the requests made for `ips` from number `n` on. -/
def Done (succeeds : Nat → Bool) (n : Nat) (ips : List Ipv4Addr) (ip : Ipv4Addr) : Prop :=
  ∃ i, ips[i]? = some ip ∧ succeeds (n + i) = true

section Requests

variable {k : Netlink} {ip q : Ipv4Addr} {ips disabledIps : List Ipv4Addr} {tx : Bool}

@[simp] theorem not_done_nil {succeeds : Nat → Bool} {n : Nat} : ¬ Done succeeds n [] q := by
  simp [Done]

theorem done_cons {succeeds : Nat → Bool} {n : Nat} :
    Done succeeds n (ip :: ips) q ↔ (ip = q ∧ succeeds n = true) ∨ Done succeeds (n + 1) ips q := by
  constructor
  · rintro ⟨_ | i, hi, hs⟩
    · exact Or.inl ⟨Option.some.inj hi, hs⟩
    · exact Or.inr ⟨i, hi, by rwa [Nat.add_right_comm, Nat.add_assoc]⟩
  · rintro (⟨rfl, hs⟩ | ⟨i, hi, hs⟩)
    · exact ⟨0, rfl, hs⟩
    · exact ⟨i + 1, hi, by rwa [Nat.add_right_comm, Nat.add_assoc] at hs⟩

/-- **`drop_traffic`** returns, and installs the routes it adds successfully. -/
theorem dropTraffic_spec (ips : List Ipv4Addr) (k : Netlink) : ∃ k',
    dropTraffic ips k = (some (), k') ∧ k'.succeeds = k.succeeds ∧
      k'.requests = k.requests + ips.length ∧
      ∀ q, q ∈ k'.routes ↔ q ∈ k.routes ∨ Done k.succeeds k.requests ips q := by
  induction ips generalizing k with
  | nil => exact ⟨k, rfl, rfl, rfl, fun q => by simp⟩
  | cons ip ips ih =>
    obtain ⟨k', hk', hs, hn, hr⟩ := ih (k.request (insert ip))
    refine ⟨k', hk', hs, ?_, fun q => ?_⟩
    · rw [hn, List.length_cons, Nat.add_comm ips.length, ← Nat.add_assoc]
      rfl
    · rw [hr, done_cons, ← or_assoc]
      refine or_congr_left ?_
      simp only [Netlink.request]
      split
      · simp [or_comm, eq_comm, *]
      · simp [*]

/-- **`turn_off_rules`** returns, and removes the routes it removes successfully. -/
theorem turnOffRules_spec (ips : List Ipv4Addr) (k : Netlink) : ∃ k',
    turnOffRules ips k = (some (), k') ∧ k'.succeeds = k.succeeds ∧
      k'.requests = k.requests + ips.length ∧
      ∀ q, q ∈ k'.routes ↔ q ∈ k.routes ∧ ¬ Done k.succeeds k.requests ips q := by
  induction ips generalizing k with
  | nil => exact ⟨k, rfl, rfl, rfl, fun q => by simp⟩
  | cons ip ips ih =>
    obtain ⟨k', hk', hs, hn, hr⟩ := ih (k.request fun routes => routes.erase ip)
    refine ⟨k', hk', hs, ?_, fun q => ?_⟩
    · rw [hn, List.length_cons, Nat.add_comm ips.length, ← Nat.add_assoc]
      rfl
    · rw [hr, done_cons, not_or, ← and_assoc]
      refine and_congr_left' ?_
      simp only [Netlink.request]
      split
      · simp [and_comm, eq_comm, *]
      · simp [*]

end Requests

/-! ## What the actor knows -/

/-- The routes installed are among those the actor will try to remove; an actor that is gone will
not remove any. -/
def Known : Option (List Ipv4Addr) → Netlink → Prop
  | some disabledIps, k => ∀ ip ∈ k.routes, ip ∈ disabledIps
  | none, k => k.routes = ∅

/-- Every route installed is removed successfully, or blocked again by the message. -/
def Cleared : Firewall → List Ipv4Addr → Netlink → Prop
  | .dropTraffic ips true, disabledIps, k =>
    ∀ ip ∈ k.routes, Done k.succeeds k.requests disabledIps ip ∨ ip ∈ ips
  | .dropTraffic ips false, disabledIps, k =>
    (∀ ip ∈ k.routes, Done k.succeeds k.requests disabledIps ip) ∧
      ∀ ip, ¬ Done k.succeeds (k.requests + disabledIps.length) ips ip
  | .turnOffRules _, disabledIps, k => ∀ ip ∈ k.routes, Done k.succeeds k.requests disabledIps ip

theorem Done.mem {succeeds : Nat → Bool} {n : Nat} {ips : List Ipv4Addr} {ip : Ipv4Addr}
    (h : Done succeeds n ips ip) : ip ∈ ips := by
  obtain ⟨i, hi, -⟩ := h
  exact List.mem_of_getElem? hi

/-- What `process` leaves of a `DropTraffic`. -/
theorem process_dropTraffic (ips disabledIps : List Ipv4Addr) (tx : Bool) (k : Netlink) : ∃ k',
    process (.dropTraffic ips tx) disabledIps k = (if tx then some ips else none, k') ∧
      k'.succeeds = k.succeeds ∧ k'.requests = k.requests + disabledIps.length + ips.length ∧
      ∀ q, q ∈ k'.routes ↔ (q ∈ k.routes ∧ ¬ Done k.succeeds k.requests disabledIps q) ∨
        Done k.succeeds (k.requests + disabledIps.length) ips q := by
  obtain ⟨k₁, h₁, hs₁, hn₁, hr₁⟩ := turnOffRules_spec disabledIps k
  obtain ⟨k₂, h₂, hs₂, hn₂, hr₂⟩ := dropTraffic_spec ips k₁
  refine ⟨k₂, ?_, hs₂.trans hs₁, by rw [hn₂, hn₁], fun q => by rw [hr₂, hr₁, hs₁, hn₁]⟩
  rw [process, Code.bind_some h₁, Code.bind_some h₂]
  cases tx <;> rfl

/-- What `process` leaves of a `TurnOffRules`. -/
theorem process_turnOffRules (disabledIps : List Ipv4Addr) (tx : Bool) (k : Netlink) : ∃ k',
    process (.turnOffRules tx) disabledIps k = (if tx then some [] else none, k') ∧
      k'.succeeds = k.succeeds ∧ k'.requests = k.requests + disabledIps.length ∧
      ∀ q, q ∈ k'.routes ↔ q ∈ k.routes ∧ ¬ Done k.succeeds k.requests disabledIps q := by
  obtain ⟨k', h, hs, hn, hr⟩ := turnOffRules_spec disabledIps k
  refine ⟨k', ?_, hs, hn, hr⟩
  rw [process, Code.bind_some h]
  cases tx <;> rfl

/-- **The condition of one message.** -/
theorem known_process_iff (m : Firewall) (disabledIps : List Ipv4Addr) (k : Netlink) :
    Known (process m disabledIps k).1 (process m disabledIps k).2 ↔ Cleared m disabledIps k := by
  cases m with
  | dropTraffic ips tx =>
    obtain ⟨k', hp, -, -, hr⟩ := process_dropTraffic ips disabledIps tx k
    rw [hp]
    cases tx with
    | true =>
      simp only [Known, Cleared, if_true, hr]
      constructor
      · intro h ip hip
        by_cases hd : Done k.succeeds k.requests disabledIps ip
        · exact Or.inl hd
        · exact Or.inr (h ip (Or.inl ⟨hip, hd⟩))
      · rintro h ip (⟨hip, hd⟩ | hd)
        · exact (h ip hip).resolve_left hd
        · exact hd.mem
    | false =>
      simp only [Known, Cleared, Bool.false_eq_true, if_false, Finset.eq_empty_iff_forall_notMem, hr,
        not_or, not_and, not_not, forall_and]
  | turnOffRules tx =>
    obtain ⟨k', hp, -, -, hr⟩ := process_turnOffRules disabledIps tx k
    rw [hp]
    cases tx <;> simp [Known, Cleared, Finset.eq_empty_iff_forall_notMem, hr]

/-! ## Runs of the actor -/

/-- The addresses a message leaves in `disabled_ips`. -/
def leaves : Firewall → List Ipv4Addr
  | .dropTraffic ips _ => ips
  | .turnOffRules _ => []

/-- The addresses in `disabled_ips` after the messages. -/
def remembered (ms : List Firewall) : List Ipv4Addr := (ms.map leaves).getLastD []

/-- While no request has failed, the routes installed are those in `disabled_ips`. -/
def Exact (succeeds : Nat → Bool) (disabledIps : List Ipv4Addr) (k : Netlink) : Prop :=
  k.succeeds = succeeds ∧
    ((∀ n < k.requests, succeeds n = true) → ∀ ip, ip ∈ k.routes ↔ ip ∈ disabledIps)

theorem done_iff_mem {succeeds : Nat → Bool} {n : Nat} {ips : List Ipv4Addr} {ip : Ipv4Addr}
    (h : ∀ i < n + ips.length, succeeds i = true) : Done succeeds n ips ip ↔ ip ∈ ips := by
  refine ⟨Done.mem, fun hmem => ?_⟩
  obtain ⟨i, hi, rfl⟩ := List.getElem_of_mem hmem
  exact ⟨i, List.getElem?_eq_getElem hi, h (n + i) (by omega)⟩

theorem exact_process {succeeds : Nat → Bool} (m : Firewall) (disabledIps : List Ipv4Addr)
    (k : Netlink) (disabledIps' : List Ipv4Addr) (k' : Netlink) (h : Exact succeeds disabledIps k)
    (hp : process m disabledIps k = (some disabledIps', k')) : Exact succeeds disabledIps' k' := by
  obtain ⟨hs, hr⟩ := h
  cases m with
  | dropTraffic ips tx =>
    obtain ⟨k₁, h₁, hs₁, hn₁, hr₁⟩ := process_dropTraffic ips disabledIps tx k
    rw [h₁, Code.answered_iff] at hp
    obtain ⟨-, rfl, rfl⟩ := hp
    refine ⟨hs₁.trans hs, fun hall ip => ?_⟩
    rw [hn₁] at hall
    rw [hr₁, hs, hr fun n hn => hall n (by omega), done_iff_mem fun i hi => hall i (by omega),
      done_iff_mem hall]
    simp
  | turnOffRules tx =>
    obtain ⟨k₁, h₁, hs₁, hn₁, hr₁⟩ := process_turnOffRules disabledIps tx k
    rw [h₁, Code.answered_iff] at hp
    obtain ⟨-, rfl, rfl⟩ := hp
    refine ⟨hs₁.trans hs, fun hall ip => ?_⟩
    rw [hn₁] at hall
    rw [hr₁, hs, hr fun n hn => hall n (by omega), done_iff_mem fun i hi => hall i (by omega)]
    simp

theorem process_leaves {m : Firewall} {disabledIps disabledIps' : List Ipv4Addr} {k k' : Netlink}
    (hp : process m disabledIps k = (some disabledIps', k')) : disabledIps' = leaves m := by
  cases m with
  | dropTraffic ips tx =>
    obtain ⟨k₁, h₁, -⟩ := process_dropTraffic ips disabledIps tx k
    rw [h₁, Code.answered_iff] at hp
    exact hp.2.1.symm
  | turnOffRules tx =>
    obtain ⟨k₁, h₁, -⟩ := process_turnOffRules disabledIps tx k
    rw [h₁, Code.answered_iff] at hp
    exact hp.2.1.symm

theorem serve_remembered {ms : List Firewall} {disabledIps disabledIps' : List Ipv4Addr}
    {k k' : Netlink} (h : serve process ms disabledIps k = (some disabledIps', k')) :
    disabledIps' = (ms.map leaves).getLastD disabledIps := by
  induction ms generalizing disabledIps k with
  | nil =>
    cases h
    rfl
  | cons m ms ih =>
    rcases hm : process m disabledIps k with ⟨_ | s, w⟩
    · rw [serve_cons_none hm] at h
      cases h
    · obtain rfl := process_leaves hm
      rw [serve_cons_some hm] at h
      rw [ih h, List.map_cons, List.getLastD_cons]

/-- The channel closes and the loop ends in `k`, and no request has failed. -/
def Faultless (ms : List Firewall) (succeeds : Nat → Bool) (k : Netlink) : Prop :=
  (∃ disabledIps, serve process ms [] (start succeeds) = (some disabledIps, k)) ∧
    ∀ n < k.requests, succeeds n = true

/-- No route outlives what the actor knows of it: at every message boundary the routes installed are
in `disabled_ips`, and none is left when the loop ends without a failed request. -/
def RoutesKnown (ms : List Firewall) (succeeds : Nat → Bool) : Prop :=
  Always process Known ms [] (start succeeds) ∧
    ∀ k, Faultless ms succeeds k → k.routes = ∅

/-- What the loop leaves when no request has failed are the routes of the last message. -/
theorem Faultless.mem_routes {ms : List Firewall} {succeeds : Nat → Bool} {k : Netlink}
    (h : Faultless ms succeeds k) (ip : Ipv4Addr) : ip ∈ k.routes ↔ ip ∈ remembered ms := by
  obtain ⟨⟨disabledIps, hs⟩, hall⟩ := h
  have hinit : Exact succeeds [] (start succeeds) :=
    ⟨rfl, fun _ ip => iff_of_false (Finset.notMem_empty ip) List.not_mem_nil⟩
  have hexact := serve_invariant exact_process hinit hs
  rw [hexact.2 hall, serve_remembered hs]
  rfl

/-- **No route outlives what the actor knows of it** exactly when every message clears the routes it
does not block again, and the last one, in a run without failures, blocks nothing. -/
theorem routes_known_iff (ms : List Firewall) (succeeds : Nat → Bool) :
    RoutesKnown ms succeeds ↔ Along process Cleared ms [] (start succeeds) ∧
      ∀ k, Faultless ms succeeds k → remembered ms = [] := by
  refine and_congr ?_ (forall₂_congr fun k hk => ?_)
  · refine always_iff_along (I := fun _ _ => True) (fun _ _ _ _ _ _ _ => trivial)
      (fun m s w _ _ => known_process_iff m s w) trivial ?_
    exact fun ip hip => absurd hip (Finset.notMem_empty ip)
  · rw [Finset.eq_empty_iff_forall_notMem, List.eq_nil_iff_forall_not_mem]
    exact forall_congr' fun ip => not_congr (hk.mem_routes ip)

/-- **A removal that fails is forgotten**, and a route is left when the loop ends after a
`DropTraffic`. -/
theorem routes_forgotten :
    ¬ RoutesKnown [.dropTraffic [1] true, .turnOffRules true] (fun n => n ≠ 1) ∧
      ¬ RoutesKnown [.dropTraffic [1] true] fun _ => true := by
  constructor
  · rintro ⟨h, -⟩
    have := h _ List.prefix_rfl 1 (by decide)
    exact absurd this (by decide)
  · rintro ⟨-, h⟩
    have hf : Faultless [.dropTraffic [1] true] (fun _ => true)
        (serve process [.dropTraffic [1] true] [] (start fun _ => true)).2 :=
      ⟨⟨[1], rfl⟩, fun _ _ => rfl⟩
    exact absurd (h _ hf) (by decide)

/-! ## The routes at the moment of an answer -/

/-- The requests of `drop_traffic` that change the routes succeed. -/
def DropHeard : List Ipv4Addr → Netlink → Prop
  | [], _ => True
  | ip :: ips, k => k.Heard (insert ip) ∧ DropHeard ips (k.request (insert ip))

/-- The requests of `turn_off_rules` that change the routes succeed. -/
def TurnOffHeard : List Ipv4Addr → Netlink → Prop
  | [], _ => True
  | ip :: ips, k => k.Heard (fun routes => routes.erase ip) ∧
    TurnOffHeard ips (k.request fun routes => routes.erase ip)

/-- The requests of a message that change the routes succeed. -/
def Heard : Firewall → List Ipv4Addr → Netlink → Prop
  | .dropTraffic ips _, disabledIps, k =>
    TurnOffHeard disabledIps k ∧ DropHeard ips (turnOffRules disabledIps k).2
  | .turnOffRules _, disabledIps, k => TurnOffHeard disabledIps k

instance (f : Finset Ipv4Addr → Finset Ipv4Addr) (k : Netlink) : Decidable (k.Heard f) :=
  inferInstanceAs (Decidable (_ → _))

instance decidableDropHeard : ∀ ips k, Decidable (DropHeard ips k)
  | [], _ => inferInstanceAs (Decidable True)
  | _ :: ips, _ => @instDecidableAnd _ _ _ (decidableDropHeard ips _)

instance decidableTurnOffHeard : ∀ ips k, Decidable (TurnOffHeard ips k)
  | [], _ => inferInstanceAs (Decidable True)
  | _ :: ips, _ => @instDecidableAnd _ _ _ (decidableTurnOffHeard ips _)

instance : ∀ m disabledIps k, Decidable (Heard m disabledIps k)
  | .dropTraffic _ _, _, _ => inferInstanceAs (Decidable (_ ∧ _))
  | .turnOffRules _, _, _ => inferInstanceAs (Decidable (TurnOffHeard _ _))

theorem DropHeard.routes_eq {ips : List Ipv4Addr} {k : Netlink} (h : DropHeard ips k) :
    (dropTraffic ips k).2.routes = k.routes ∪ ips.toFinset := by
  induction ips generalizing k with
  | nil => simp [dropTraffic]
  | cons ip ips ih =>
    change (dropTraffic ips (k.request (insert ip))).2.routes = _
    rw [ih h.2, h.1.routes_request, List.toFinset_cons, Finset.insert_union, Finset.union_insert]

theorem TurnOffHeard.routes_eq {ips : List Ipv4Addr} {k : Netlink} (h : TurnOffHeard ips k) :
    (turnOffRules ips k).2.routes = k.routes \ ips.toFinset := by
  induction ips generalizing k with
  | nil => simp [turnOffRules]
  | cons ip ips ih =>
    change (turnOffRules ips (k.request fun routes => routes.erase ip)).2.routes = _
    rw [ih h.2, h.1.routes_request, List.toFinset_cons]
    ext q
    simp [and_left_comm, and_assoc]

/-- **One message**: the routes that were left by the last one give way to its own. -/
theorem Heard.routes_eq {m : Firewall} {disabledIps : List Ipv4Addr} {k : Netlink}
    (h : Heard m disabledIps k) (hk : k.routes = disabledIps.toFinset) :
    (process m disabledIps k).2.routes = (leaves m).toFinset := by
  obtain ⟨k₁, h₁, -⟩ := turnOffRules_spec disabledIps k
  have hoff : TurnOffHeard disabledIps k → k₁.routes = ∅ := by
    intro ht
    have := ht.routes_eq
    rwa [h₁, hk, Finset.sdiff_self] at this
  cases m with
  | dropTraffic ips tx =>
    obtain ⟨ht, hd⟩ := h
    obtain ⟨k₂, h₂, -⟩ := dropTraffic_spec ips k₁
    have hroutes := hd.routes_eq
    rw [h₁, h₂, hoff ht, Finset.empty_union] at hroutes
    rw [process, Code.bind_some h₁, Code.bind_some h₂]
    cases tx <;> exact hroutes
  | turnOffRules tx =>
    rw [process, Code.bind_some h₁]
    cases tx <;> exact hoff h

/-- At the moment each message is answered, the routes installed are the addresses of the last
`DropTraffic` if no `TurnOffRules` followed it, and none otherwise. -/
def RoutesExact (ms : List Firewall) (succeeds : Nat → Bool) : Prop :=
  ∀ ns m, ns ++ [m] <+: ms → ∀ disabledIps k,
    serve process ns [] (start succeeds) = (some disabledIps, k) →
      (process m disabledIps k).2.routes = (remembered (ns ++ [m])).toFinset

theorem remembered_concat (ns : List Firewall) (m : Firewall) :
    remembered (ns ++ [m]) = leaves m := by
  simp [remembered]

/-- **The routes are exact** when the requests that change them succeed. -/
theorem routes_exact (ms : List Firewall) (succeeds : Nat → Bool)
    (h : Along process Heard ms [] (start succeeds)) : RoutesExact ms succeeds := by
  rintro ns m ⟨rest, rfl⟩ disabledIps k hs
  rw [List.append_assoc, List.singleton_append] at h
  have hinv := h.serve_invariant (I := fun disabledIps k => k.routes = disabledIps.toFinset)
    (fun m disabledIps k disabledIps' k' hk hm hp => by
      have hroutes := hm.routes_eq hk
      rwa [hp, ← process_leaves hp] at hroutes) rfl hs
  obtain ⟨hk, hm, -⟩ := hinv
  rw [remembered_concat]
  exact hm.routes_eq hk

/-- Addresses named twice and in both lists, where the second removal of `1` fails. -/
theorem routes_exact_repeated :
    RoutesExact [.dropTraffic [1, 1, 2] true, .dropTraffic [2, 3] true, .turnOffRules true]
      fun n => n ≠ 4 := by
  refine routes_exact _ _ ?_
  decide

end firewall

end E2etest
