import E2etest.Services.Clients

/-!
# What clients share

Some clients share the firewall, or the DNS server; each sends its requests when it comes to it, and
may be cancelled.

* `firewall.clients_routes`: the routes are those of the last request that was handled, whoever made
  it; the others are gone, and those are left when the actor is.
* `dns.upsert_visible`: `upsert` returns before its record is there, but it is when the client has
  its next answer, and until somebody removes the name.
-/

namespace E2etest

open Async Os Text Channel

variable {ι : Type} [DecidableEq ι] {cap : Nat}

namespace firewall

/-- The messages of the requests that were handled. -/
def word (t : List (Label ι FirewallExt fun _ => Unit)) : List Firewall :=
  (messages t).map fun m => m.1.message m.2

/-- The addresses that the last of the requests blocks. -/
def blocked (l : List (ι × FirewallExt)) : List Ipv4Addr :=
  match l.getLast? with
  | some (_, .dropTraffic ips) => ips
  | some (_, .turnOffRules) | none => []

section

variable {clients : ι → Client FirewallExt fun _ => Unit} {succeeds : Nat → Bool}
  {t : List (Label ι FirewallExt fun _ => Unit)} {l : Label ι FirewallExt fun _ => Unit}
  {x y : Net ι FirewallExt (fun _ => Unit) (List Ipv4Addr) Netlink} {i : ι} {q : FirewallExt}
  {heard : Bool} {disabledIps : List Ipv4Addr}

omit [DecidableEq ι] in
theorem blocked_snoc (m : List (ι × FirewallExt)) :
    blocked (m ++ [(i, q)]) = leaves (q.message heard) := by
  unfold blocked
  rw [List.getLast?_concat]
  cases q <;> rfl

/-- The request in hand meets the condition of its message. -/
theorem heard_in_hand (h : Run service cap (Channel.start clients [] (start succeeds)) t x)
    (ha : x.actor = .busy i q disabledIps) (hl : l.handled = some (i, q, heard))
    (hheard : Along process Heard (word (t ++ [l])) [] (start succeeds)) :
    Heard (q.message heard) disabledIps x.world := by
  have hstate := (sequential h).state
  unfold Served at hstate
  rw [ha] at hstate
  have hserve : serve process (word t) [] (start succeeds) = (some disabledIps, x.world) := by
    rw [← hstate]
    exact (congrFun (serve_message _ _) _).symm
  have hword : word (t ++ [l]) = word t ++ [q.message heard] := by
    unfold word
    rw [messages_snoc, hl]
    simp
  rw [hword] at hheard
  exact (hheard.serve_invariant (I := fun _ _ => True) (fun _ _ _ _ _ _ _ _ => trivial) trivial
    hserve).2.1

/-- **The routes are those of the last request handled**, whoever made it, when the requests to the
kernel that change them succeed. -/
theorem clients_routes (h : Run service cap (Channel.start clients [] (start succeeds)) t x)
    (hheard : Along process Heard (word t) [] (start succeeds)) :
    x.world.routes = (blocked (served t)).toFinset := by
  -- the actor remembers the routes
  suffices x.world.routes = (blocked (served t)).toFinset ∧ ∀ disabledIps,
      x.actor = .idle disabledIps ∨ (∃ i q, x.actor = .busy i q disabledIps) →
        x.world.routes = disabledIps.toFinset from this.1
  induction h with
  | refl =>
    refine ⟨rfl, ?_⟩
    rintro disabledIps (⟨⟨⟩⟩ | ⟨i, q, ⟨⟩⟩)
    rfl
  | @tail t y z l hrun hs ih =>
    have hprefix : Along process Heard (word t) [] (start succeeds) := by
      unfold word at hheard
      rw [messages_snoc, List.map_append] at hheard
      exact hheard.left
    obtain ⟨hroutes, hknown⟩ := ih hprefix
    have hsame : l.handled = none → served (t ++ [l]) = served t := fun hl => by
      rw [served_snoc, hl]
      exact List.append_nil _
    have hone : ∀ {i q s heard o w}, y.actor = .busy i q s → l.handled = some (i, q, heard) →
        process (q.message heard) s y.world = (o, w) →
          w.routes = (blocked (served (t ++ [l]))).toFinset := by
      intro i q s heard o w ha hl hp
      have := (heard_in_hand hrun ha hl hheard).routes_eq (hknown s (Or.inr ⟨i, q, ha⟩))
      rw [hp] at this
      rw [served_snoc, hl, Option.toList_some, List.map_singleton, this]
      exact congrArg _ (blocked_snoc (served t)).symm
    cases hs with
    | tell _ _ _ _ | ask _ _ _ _ | refuse _ _ | panic _ | lose _ _ | cancel _ =>
      rw [hsame rfl]
      exact ⟨hroutes, hknown⟩
    | take ha hq =>
      rw [hsame rfl]
      refine ⟨hroutes, ?_⟩
      rintro disabledIps (⟨⟨⟩⟩ | ⟨i, q, ⟨⟩⟩)
      exact hknown _ (Or.inl ha)
    | close ha hq hall hp =>
      rw [hsame rfl]
      cases hp
      refine ⟨hroutes, ?_⟩
      rintro disabledIps (⟨⟨⟩⟩ | ⟨i, q, ⟨⟩⟩)
    | @answer i q _ _ _ _ _ ha hc ht hp | @serve i q _ _ _ _ ha hno hp =>
      obtain ⟨hp, -⟩ := process_serviceOf_some.mp hp
      have hroutes := hone ha rfl hp
      refine ⟨hroutes, ?_⟩
      rintro disabledIps (⟨⟨⟩⟩ | ⟨i, q, ⟨⟩⟩)
      rw [served_snoc, Label.handled, Option.toList_some, List.map_singleton, blocked_snoc,
        ← process_leaves hp] at hroutes
      exact hroutes
    | crash ha hh hp hgone =>
      refine ⟨hone ha rfl (process_serviceOf_crash hp), ?_⟩
      rintro disabledIps (⟨⟨⟩⟩ | ⟨i, q, ⟨⟩⟩)

end

/-- The first client blocks `1` and `2`, and then the other one `2` only. -/
theorem clients_routes_blocked : ∃ t x, Run service 10
    (Channel.start (fun i : Bool => .call (.dropTraffic (bif i then [2] else [1, 2])) fun _ => .done)
      [] (start fun _ => true)) t x ∧ served t = [(false, .dropTraffic [1, 2]),
        (true, .dropTraffic [2])] ∧ x.world.routes = {2} := by
  have h₀ : Run service 10 (Channel.start (fun i : Bool =>
    .call (.dropTraffic (bif i then [2] else [1, 2])) fun _ => .done) []
      (start fun _ => true)) [] _ := .refl
  have h₁ := h₀.tail (.ask (i := false) rfl rfl rfl (by decide))
  have h₂ := h₁.tail (.ask (i := true) rfl rfl rfl (by decide))
  have h₃ := h₂.tail (.take rfl rfl)
  have h₄ := h₃.tail (.answer rfl rfl rfl rfl)
  have h₅ := h₄.tail (.take rfl rfl)
  have h₆ := h₅.tail (.answer rfl rfl rfl rfl)
  have hroutes := clients_routes h₆ (by decide)
  exact ⟨_, _, h₆, rfl, hroutes⟩

end firewall

namespace dns

/-! ## The DNS server -/

section Upserted

variable {H : Hickory} {n : H.LowerName} {ips : Finset Ipv4Addr} {ms ns : List Dns} {name : Str}
  {ip : Ipv4Addr}

theorem upserted_append : upserted n ips (ms ++ ns) = upserted n (upserted n ips ms) ns := by
  induction ms generalizing ips with
  | nil => rfl
  | cons m ms ih => cases m <;> exact ih

/-- An address stays where the name is not removed. -/
theorem mem_upserted (h : ip ∈ ips) (hno : ∀ name, .remove name ∈ ms → zoneName name ≠ some n) :
    ip ∈ upserted n ips ms := by
  induction ms generalizing ips with
  | nil => exact h
  | cons m ms ih =>
    have hms : ∀ name, .remove name ∈ ms → zoneName name ≠ some n := fun name hm =>
      hno name (List.mem_cons_of_mem _ hm)
    cases m with
    | version tx | domain tx => exact ih h hms
    | remove name =>
      unfold upserted
      rw [if_neg (hno name List.mem_cons_self)]
      exact ih h hms
    | upsert name ip' =>
      unfold upserted
      refine ih ?_ hms
      split
      · exact Finset.mem_insert_of_mem h
      · exact h

variable {overflowChecks : Bool} {state state' : State H}

/-- An address that was upserted, and not removed since, is in the zone. -/
theorem mem_aRecords_serve (hH : H.Laws) {zone : H.Name}
    (hs : serve (process H overflowChecks) (ms ++ .upsert name ip :: ns) (State.new H zone) () =
      (some state, ()))
    (hno : ∀ name', .remove name' ∈ ns → zoneName (H := H) name' ≠ zoneName name) :
    ∃ n, zoneName name = some n ∧ .a ip ∈ aRecords state n := by
  have hsplit := hs
  rw [serve_append, Code.bind_eq_some] at hsplit
  obtain ⟨s₁, _, -, hrest⟩ := hsplit
  rw [serve, Code.bind_eq_some] at hrest
  obtain ⟨s₂, _, hup, -⟩ := hrest
  obtain ⟨m, _, hparse, -⟩ := Code.bind_eq_some.mp hup
  have hz := zoneName_of_parse hH (Code.expect_eq_some.mp hparse).1
  refine ⟨_, hz, ?_⟩
  rw [aRecords_serve hH (fun _ => ∅)
    (fun n => (aRecords_new hH zone n).trans (Finset.image_empty _).symm) hs]
  refine Finset.mem_image_of_mem _ ?_
  rw [upserted_append]
  unfold upserted
  rw [if_pos hz]
  exact mem_upserted (Finset.mem_insert_self _ _) fun name' hm => by
    rw [← hz]
    exact hno name' hm

end Upserted

section Clients

variable {H : Hickory} {overflowChecks : Bool} {version : Str} {clients : ι → Client DnsExt DnsExt.Reply}
  {zone : H.Name} {t : List (Label ι DnsExt DnsExt.Reply)}
  {x : Net ι DnsExt DnsExt.Reply (State H) Unit} {i : ι} {r : Σ q, DnsExt.Reply q} {name : Str}
  {ip : Ipv4Addr} {before after : List (ι × DnsExt)}

/-- **An address is visible with the next answer** of the client that upserted it, and as long as
nobody, the client itself included, removes the name, whatever else the clients do. -/
theorem upsert_visible (hH : H.Laws)
    (h : Run (service H overflowChecks version) cap (Channel.start clients (State.new H zone) ())
      (t ++ [.answer i r]) x)
    (hsent : sent t = before ++ (i, .upsert name ip) :: after)
    (hno : ∀ j name', (j, .remove name') ∈ after → zoneName (H := H) name' ≠ zoneName name) :
    ∃ state n, x.actor = .idle state ∧ zoneName name = some n ∧ .a ip ∈ aRecords state n := by
  obtain ⟨⟨rest, hall, -⟩, hstate, -, -⟩ := sequential h
  obtain ⟨y, h, hs⟩ := run_snoc.mp h
  have hflush := requestsOf_answer h hs
  have hsame : sent (t ++ [.answer i r]) = sent t := by
    rw [sent_snoc]
    exact List.append_nil _
  rw [hsame] at hall
  -- what the client sent is handled, and the upsert with it
  have hnone : requestsOf i rest = [] := by
    have := congrArg (requestsOf i) hall
    rw [requestsOf_append, hflush] at this
    exact List.append_right_eq_self.mp this.symm
  have hserved : ∃ after', served (t ++ [.answer i r]) = before ++ (i, .upsert name ip) :: after' ∧
      after' <+: after := by
    rw [hsent] at hall
    rcases List.append_eq_append_iff.mp hall with ⟨a, h₁, h₂⟩ | ⟨a, h₁, h₂⟩
    · cases a with
      | nil =>
        rw [List.nil_append] at h₂
        rw [← h₂] at hnone
        simp [requestsOf] at hnone
      | cons m a =>
        obtain ⟨rfl, ha⟩ := List.cons.inj h₂
        exact ⟨a, h₁, rest, ha.symm⟩
    · rw [h₂] at hnone
      simp [requestsOf] at hnone
  obtain ⟨after', hserved, hafter⟩ := hserved
  obtain ⟨ms, heard, ns, hms, hns⟩ := messages_of_served hserved
  cases hs with
  | @answer i q k s s' r w ha hc ht hp =>
    have hserve : serve (process H overflowChecks)
        ((messages (t ++ [.answer i ⟨q, r⟩])).map fun m => m.1.message m.2) (State.new H zone) () =
          (some s', ()) := (congrFun (serve_message _ _) _).symm.trans hstate
    rw [hms, List.map_append, List.map_cons] at hserve
    obtain ⟨n, hn, hmem⟩ := mem_aRecords_serve hH hserve fun name' hr => by
      obtain ⟨⟨p, b⟩, hp, hpr⟩ := List.mem_map.mp hr
      have hp' := List.mem_map_of_mem (f := Prod.fst) hp
      rw [hns] at hp'
      obtain ⟨⟨j, p⟩, hj, rfl⟩ := List.mem_map.mp hp'
      cases p with
      | version | domain | upsert _ _ => cases hpr
      | remove name =>
        cases hpr
        exact hno j name' (hafter.subset hj)
    exact ⟨s', n, rfl, hn, hmem⟩

end Clients

/-- One client upserts a name and asks for the domain, while the other one removes another name. -/
theorem upsert_visible_simple : ∃ t x, Run (service simple false []) 10
    (Channel.start (fun i : Bool => bif i then .call (.remove ['b']) fun _ => .done
      else .call (.upsert ['a'] 1) fun _ => .call .domain fun _ => .done)
        (State.new simple ZONE) ()) (t ++ [.answer false ⟨.domain, ZONE.dropLast⟩]) x ∧
      sent t = [(false, .upsert ['a'] 1), (true, .remove ['b']), (false, .domain)] ∧
      ∃ state n, x.actor = .idle state ∧ zoneName (H := simple) ['a'] = some n ∧
        .a 1 ∈ aRecords state n := by
  have h₀ : Run (service simple false []) 10
      (Channel.start (fun i : Bool => bif i then .call (.remove ['b']) fun _ => .done
        else .call (.upsert ['a'] 1) fun _ => .call .domain fun _ => .done)
          (State.new simple ZONE) ()) [] _ := .refl
  have hno : ∀ {x : Net Bool DnsExt DnsExt.Reply (State simple) Unit} {i q r},
      DnsExt.told q = some r → ¬ x.Awaited (service simple false []) i q := by
    rintro x i q r hq ⟨ht, -⟩
    cases hq.symm.trans ht
  have h₁ := h₀.tail (.tell (i := false) rfl rfl rfl (by decide))
  have h₂ := h₁.tail (.tell (i := true) rfl rfl rfl (by decide))
  have h₃ := h₂.tail (.ask (i := false) rfl rfl rfl (by decide))
  have h₄ := h₃.tail (.take rfl rfl)
  have h₅ := h₄.tail (.serve rfl (hno rfl) rfl)
  have h₆ := h₅.tail (.take rfl rfl)
  have h₇ := h₆.tail (.serve rfl (hno rfl) rfl)
  have h₈ := h₇.tail (.take rfl rfl)
  have h₉ := h₈.tail (.answer rfl rfl rfl rfl)
  have hno : ∀ j name, (j, DnsExt.remove name) ∈ [(true, .remove ['b']), (false, .domain)] →
      zoneName (H := simple) name ≠ zoneName ['a'] := by
    rintro j name hm
    obtain ⟨rfl, rfl⟩ : j = true ∧ name = ['b'] := by simpa using hm
    decide
  exact ⟨_, _, h₉, rfl, upsert_visible simple_laws h₉ (List.nil_append _).symm hno⟩

end dns

end E2etest
