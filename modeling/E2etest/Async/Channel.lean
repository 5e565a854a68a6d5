import E2etest.Async.Actor
import E2etest.Async.Ends
import Mathlib.Data.Fintype.Basic

/-!
# Actors behind a channel

Clients share an actor: each sends its requests over one bounded channel, and waits for the answers
it wants on a channel of its own. A request sits in the queue until the actor takes it; a client that
is cancelled meanwhile is gone, but its request stays in the queue. An actor that panics drops the
queue, and whoever waits for it, or sends to it later, panics too. When all clients are gone or done,
the actor stops.

* `sequential`: whatever the interleaving, the actor handles the requests in the order they were
  sent, each once, as the loop `serve` does one after the other; every answer is the one given there,
  and every client sees an execution of its own program.
* `channel_ends`, `channel_comes_to_rest`: no run lasts for ever, and each can be brought to where all
  clients are through, or the actor waits for ever.
* `Strict.abandonedFatal`: where an answer that nobody waits for makes the actor panic, nothing that
  was sent after an abandoned request is ever answered. `all_served`: where nothing makes it panic, no
  client fails that is not cancelled.
-/

namespace Async

/-- A client: it is done, it panics, or it makes a request and goes on with what that returns. -/
inductive Client (Q : Type) (R : Q → Type)
  | done
  | panic
  | call (q : Q) (k : R q → Client Q R)

/-- What an actor does for its clients. -/
structure Service (Q : Type) (R : Q → Type) (σ W : Type) where
  /-- What a request returns when it is sent, if no answer is awaited. -/
  told : ∀ q, Option (R q)
  /-- How a request is handled, given whether somebody waits for the answer. -/
  process : ∀ q, Bool → σ → Code W (σ × R q)
  /-- What is done when the channel closes. -/
  stop : σ → Code W σ
  /-- The actor is not gone when a request does not return: it waits for ever. -/
  stuck : W → Bool := fun _ => false

namespace Channel

/-- How far a client is. -/
inductive Status (Q : Type) (R : Q → Type)
  | ready (c : Client Q R)
  | waiting (q : Q) (k : R q → Client Q R)
  | gone

/-- How far the actor is. -/
inductive Actor (ι Q σ : Type)
  | idle (s : σ)
  | busy (i : ι) (q : Q) (s : σ)
  | stopped
  | dead

structure Net (ι Q : Type) (R : Q → Type) (σ W : Type) where
  clients : ι → Status Q R
  queue : List (ι × Q)
  actor : Actor ι Q σ
  world : W

/-- A step, by what it shows. -/
inductive Label (ι Q : Type) (R : Q → Type)
  /-- A request is sent, and returns at once. -/
  | tell (i : ι) (c : Σ q, R q)
  | ask (i : ι) (q : Q)
  | take
  /-- A request is handled, and its answer received. -/
  | answer (i : ι) (c : Σ q, R q)
  /-- A request is handled for nobody. -/
  | serve (i : ι) (q : Q)
  | crash (i : ι) (q : Q) (heard : Bool)
  | panic (i : ι)
  /-- A client panics because the actor is not there any more. -/
  | fail (i : ι)
  | cancel (i : ι)
  | close

variable {ι Q : Type} {R : Q → Type} {σ W : Type}

/-- The client does nothing more. -/
def Status.Finished (a : Status Q R) : Prop := a = .ready .done ∨ a = .gone

/-- The channel can be sent to. -/
def Actor.isOpen : Actor ι Q σ → Bool
  | .idle _ | .busy _ _ _ => true
  | .stopped | .dead => false

/-- The request in hand. -/
def Actor.inHand : Actor ι Q σ → List (ι × Q)
  | .busy i q _ => [(i, q)]
  | .idle _ | .stopped | .dead => []

/-- The state of an actor that is there. -/
def Actor.state : Actor ι Q σ → Option σ
  | .idle s | .busy _ _ s => some s
  | .stopped | .dead => none

theorem Actor.exists_state {a : Actor ι Q σ} (h : a.isOpen = true) : ∃ s, a.state = some s := by
  cases a with
  | idle s | busy i q s => exact ⟨s, rfl⟩
  | stopped | dead => cases h

namespace Net

/-- The requests sent and not handled yet. -/
def pending (x : Net ι Q R σ W) : List (ι × Q) := x.actor.inHand ++ x.queue

/-- Somebody waits for the answer. -/
def Awaited (S : Service Q R σ W) (x : Net ι Q R σ W) (i : ι) (q : Q) : Prop :=
  S.told q = none ∧ ∃ k, x.clients i = .waiting q k

variable [DecidableEq ι]

/-- The status of one client changes. -/
def setClient (x : Net ι Q R σ W) (i : ι) (a : Status Q R) : Net ι Q R σ W :=
  { x with clients := Function.update x.clients i a }

end Net

/-- Before the first request. -/
def start (clients : ι → Client Q R) (s : σ) (w : W) : Net ι Q R σ W :=
  ⟨fun i => .ready (clients i), [], .idle s, w⟩

variable [DecidableEq ι]

/-- One step, with a channel for `cap` requests. -/
inductive Step (S : Service Q R σ W) (cap : Nat) (x : Net ι Q R σ W) :
    Label ι Q R → Net ι Q R σ W → Prop
  | tell {i : ι} {q : Q} {k : R q → Client Q R} {r : R q} (hc : x.clients i = .ready (.call q k))
      (ht : S.told q = some r) (ho : x.actor.isOpen = true) (hroom : x.queue.length < cap) :
      Step S cap x (.tell i ⟨q, r⟩)
        { x.setClient i (.ready (k r)) with queue := x.queue ++ [(i, q)] }
  | ask {i : ι} {q : Q} {k : R q → Client Q R} (hc : x.clients i = .ready (.call q k))
      (ht : S.told q = none) (ho : x.actor.isOpen = true) (hroom : x.queue.length < cap) :
      Step S cap x (.ask i q) { x.setClient i (.waiting q k) with queue := x.queue ++ [(i, q)] }
  /-- `send` fails: "internal actor should receive request". -/
  | refuse {i : ι} {q : Q} {k : R q → Client Q R} (hc : x.clients i = .ready (.call q k))
      (ho : x.actor.isOpen = false) : Step S cap x (.fail i) (x.setClient i .gone)
  | panic {i : ι} (hc : x.clients i = .ready .panic) :
      Step S cap x (.panic i) (x.setClient i .gone)
  | take {i : ι} {q : Q} {s : σ} {rest : List (ι × Q)} (ha : x.actor = .idle s)
      (hq : x.queue = (i, q) :: rest) :
      Step S cap x .take { x with actor := .busy i q s, queue := rest }
  | answer {i : ι} {q : Q} {k : R q → Client Q R} {s s' : σ} {r : R q} {w : W}
      (ha : x.actor = .busy i q s) (hc : x.clients i = .waiting q k) (ht : S.told q = none)
      (hp : S.process q true s x.world = (some (s', r), w)) :
      Step S cap x (.answer i ⟨q, r⟩)
        { x.setClient i (.ready (k r)) with actor := .idle s', world := w }
  | serve {i : ι} {q : Q} {s s' : σ} {r : R q} {w : W} (ha : x.actor = .busy i q s)
      (hno : ¬ x.Awaited S i q) (hp : S.process q false s x.world = (some (s', r), w)) :
      Step S cap x (.serve i q) { x with actor := .idle s', world := w }
  | crash {i : ι} {q : Q} {s : σ} {heard : Bool} {w : W} (ha : x.actor = .busy i q s)
      (hh : heard = true ↔ x.Awaited S i q) (hp : S.process q heard s x.world = (none, w))
      (hgone : S.stuck w = false) :
      Step S cap x (.crash i q heard) { x with actor := .dead, queue := [], world := w }
  /-- The answer never comes: "internal actor should send response". -/
  | lose {i : ι} {q : Q} {k : R q → Client Q R} (hc : x.clients i = .waiting q k)
      (ho : x.actor.isOpen = false) : Step S cap x (.fail i) (x.setClient i .gone)
  | cancel {i : ι} (hc : ¬ (x.clients i).Finished) :
      Step S cap x (.cancel i) (x.setClient i .gone)
  | close {s : σ} {o : Option σ} {w : W} (ha : x.actor = .idle s) (hq : x.queue = [])
      (hall : ∀ i, (x.clients i).Finished) (hp : S.stop s x.world = (o, w)) :
      Step S cap x .close { x with actor := .stopped, world := w }

/-- Some steps. -/
inductive Run (S : Service Q R σ W) (cap : Nat) (x : Net ι Q R σ W) :
    List (Label ι Q R) → Net ι Q R σ W → Prop
  | refl : Run S cap x [] x
  | tail {t : List (Label ι Q R)} {y z : Net ι Q R σ W} {l : Label ι Q R} (h : Run S cap x t y)
      (hs : Step S cap y l z) : Run S cap x (t ++ [l]) z

/-! ## What a run shows -/

/-- The request a step sends. -/
def Label.sent : Label ι Q R → Option (ι × Q)
  | .tell i c => some (i, c.1)
  | .ask i q => some (i, q)
  | _ => none

/-- The request a step handles, and whether somebody waits for the answer. -/
def Label.handled : Label ι Q R → Option (ι × Q × Bool)
  | .answer i c => some (i, c.1, true)
  | .serve i q => some (i, q, false)
  | .crash i q heard => some (i, q, heard)
  | _ => none

/-- What a request of the client returns in a step. -/
def Label.returned (i : ι) : Label ι Q R → Option (Σ q, R q)
  | .tell j c | .answer j c => if j = i then some c else none
  | _ => none

/-- The requests sent, in order. -/
def sent (t : List (Label ι Q R)) : List (ι × Q) := t.filterMap Label.sent

/-- The requests handled, in order. -/
def handled (t : List (Label ι Q R)) : List (ι × Q × Bool) := t.filterMap Label.handled

/-- The requests handled, each with its client. -/
def served (t : List (Label ι Q R)) : List (ι × Q) := (handled t).map fun m => (m.1, m.2.1)

/-- The requests handled, as messages to the actor. -/
def messages (t : List (Label ι Q R)) : List (Q × Bool) := (handled t).map Prod.snd

/-- The requests of one client. -/
def requestsOf (i : ι) (l : List (ι × Q)) : List Q := (l.filter fun p => decide (p.1 = i)).map Prod.snd

/-- What the requests of a client returned. -/
def returned (i : ι) (t : List (Label ι Q R)) : List (Σ q, R q) := t.filterMap (Label.returned i)

section Snoc

variable (t : List (Label ι Q R)) (l : Label ι Q R) (i : ι)

omit [DecidableEq ι] in
theorem sent_snoc : sent (t ++ [l]) = sent t ++ l.sent.toList := by
  unfold sent
  rw [List.filterMap_append]
  cases l <;> rfl

omit [DecidableEq ι] in
theorem handled_snoc : handled (t ++ [l]) = handled t ++ l.handled.toList := by
  unfold handled
  rw [List.filterMap_append]
  cases l <;> rfl

omit [DecidableEq ι] in
theorem served_snoc : served (t ++ [l]) =
    served t ++ (l.handled.toList.map fun m => (m.1, m.2.1)) := by
  unfold served
  rw [handled_snoc, List.map_append]

omit [DecidableEq ι] in
theorem messages_snoc : messages (t ++ [l]) = messages t ++ l.handled.toList.map Prod.snd := by
  unfold messages
  rw [handled_snoc, List.map_append]

theorem returned_snoc : returned i (t ++ [l]) = returned i t ++ (l.returned i).toList := by
  unfold returned
  rw [List.filterMap_append]
  cases h : l.returned i <;> simp [h]

end Snoc

omit [DecidableEq ι] in
/-- A request that was handled, as a message. -/
theorem messages_of_served {t : List (Label ι Q R)} {before after : List (ι × Q)} {i : ι} {q : Q}
    (h : served t = before ++ (i, q) :: after) : ∃ ms heard ns,
      messages t = ms ++ (q, heard) :: ns ∧ ns.map Prod.fst = after.map Prod.snd := by
  obtain ⟨ms, ns, hmn, rfl, hns⟩ := List.map_eq_append_iff.mp h
  obtain ⟨⟨j, p, heard⟩, ns, rfl, hm, rfl⟩ := List.map_eq_cons_iff.mp hns
  obtain ⟨rfl, rfl⟩ := Prod.mk.inj hm
  refine ⟨ms.map Prod.snd, heard, ns.map Prod.snd, ?_, by simp⟩
  unfold messages
  rw [hmn, List.map_append, List.map_cons]

/-- What the actor does with a message. -/
def message (S : Service Q R σ W) (m : Q × Bool) (s : σ) : Code W σ := do
  let (s, _) ← S.process m.1 m.2 s
  return s

/-! ## The actor handles the requests one after the other -/

variable {S : Service Q R σ W} {cap : Nat} {x y z : Net ι Q R σ W} {t : List (Label ι Q R)}
  {l : Label ι Q R}

/-- The last step of a run. -/
theorem run_snoc : Run S cap x (t ++ [l]) z ↔ ∃ y, Run S cap x t y ∧ Step S cap y l z := by
  constructor
  · intro h
    generalize hu : t ++ [l] = u at h
    cases h with
    | refl => exact absurd hu (by simp)
    | @tail t' y _ l' h hs =>
      obtain ⟨rfl, hl⟩ := List.append_inj' hu rfl
      obtain rfl := (List.cons.inj hl).1
      exact ⟨y, h, hs⟩
  · rintro ⟨y, h, hs⟩
    exact .tail h hs

/-- The beginning of a run. -/
theorem Run.split {u : List (Label ι Q R)} (h : Run S cap x (t ++ u) z) :
    ∃ y, Run S cap x t y ∧ Run S cap y u z := by
  induction u using List.reverseRecOn generalizing z with
  | nil =>
    rw [List.append_nil] at h
    exact ⟨z, h, .refl⟩
  | append_singleton u l ih =>
    rw [← List.append_assoc] at h
    obtain ⟨z', h, hs⟩ := run_snoc.mp h
    obtain ⟨y, ht, hu⟩ := ih h
    exact ⟨y, ht, hu.tail hs⟩

theorem Run.trans {u : List (Label ι Q R)} (h : Run S cap x t y) (hu : Run S cap y u z) :
    Run S cap x (t ++ u) z := by
  induction hu with
  | refl => rwa [List.append_nil]
  | tail _ hs ih =>
    rw [← List.append_assoc]
    exact .tail ih hs

/-- The client makes the calls, with these results, and then has this left to do. -/
inductive Does (c : Client Q R) : List (Σ q, R q) → Client Q R → Prop
  | refl : Does c [] c
  | call {v : List (Σ q, R q)} {q : Q} {k : R q → Client Q R} (h : Does c v (.call q k)) (r : R q) :
      Does c (v ++ [⟨q, r⟩]) (k r)

/-- The client has sent these requests, of which these calls have returned. -/
def Shows (c : Client Q R) (ms : List Q) (v : List (Σ q, R q)) : Status Q R → Prop
  | .ready d => Does c v d ∧ ms = v.map Sigma.fst
  | .waiting q k => Does c v (.call q k) ∧ ms = v.map Sigma.fst ++ [q]
  | .gone => (∃ d, Does c v d ∧ ms = v.map Sigma.fst) ∨
      ∃ q k, Does c v (.call q k) ∧ ms = v.map Sigma.fst ++ [q]

theorem Shows.gone {c : Client Q R} {ms : List Q} {v : List (Σ q, R q)} {a : Status Q R}
    (h : Shows c ms v a) : Shows c ms v .gone := by
  cases a with
  | ready d => exact Or.inl ⟨d, h⟩
  | waiting q k => exact Or.inr ⟨q, k, h⟩
  | gone => exact h

/-- The client makes requests of this list, in order, and no others. -/
inductive Makes : Client Q R → List Q → Prop
  | done {ms : List Q} : Makes .done ms
  | panic {ms : List Q} : Makes .panic ms
  | call {q : Q} {k : R q → Client Q R} {ms : List Q} (h : ∀ r, Makes (k r) ms) :
      Makes (.call q k) (q :: ms)

theorem Makes.does {c d : Client Q R} {ms : List Q} {v : List (Σ q, R q)} (h : Makes c ms)
    (hd : Does c v d) : ∃ rest, Makes d rest ∧ ms = v.map Sigma.fst ++ rest := by
  induction hd with
  | refl => exact ⟨ms, h, rfl⟩
  | @call v q k hd r ih =>
    obtain ⟨rest, hrest, rfl⟩ := ih
    cases hrest with
    | @call q k rest hk => exact ⟨rest, hk r, by simp⟩

/-- What a client has sent is the beginning of what it makes. -/
theorem Makes.sends {c : Client Q R} {ms ns : List Q} {v : List (Σ q, R q)} {a : Status Q R}
    (h : Makes c ms) (hs : Shows c ns v a) : ns <+: ms := by
  have hready : ∀ {d}, Does c v d → ns = v.map Sigma.fst → ns <+: ms := by
    rintro d hd rfl
    obtain ⟨rest, -, rfl⟩ := h.does hd
    exact List.prefix_append _ _
  have hwait : ∀ {q k}, Does c v (.call q k) → ns = v.map Sigma.fst ++ [q] → ns <+: ms := by
    rintro q k hd rfl
    obtain ⟨rest, hrest, rfl⟩ := h.does hd
    cases hrest with
    | @call q k rest hk => exact ⟨rest, by simp⟩
  cases a with
  | ready d => exact hready hs.1 hs.2
  | waiting q k => exact hwait hs.1 hs.2
  | gone =>
    rcases hs with ⟨d, hd, hms⟩ | ⟨q, k, hd, hms⟩
    · exact hready hd hms
    · exact hwait hd hms

/-- What was sent and not handled is pending, as long as the actor has not crashed. -/
def InOrder (t : List (Label ι Q R)) (x : Net ι Q R σ W) : Prop :=
  ∃ rest, sent t = served t ++ rest ∧ (x.actor ≠ .dead → rest = x.pending)

/-- The actor is where the loop over the messages brings it. -/
def Served (S : Service Q R σ W) (s : σ) (w : W) (ms : List (Q × Bool)) (x : Net ι Q R σ W) : Prop :=
  match x.actor with
  | .idle s' | .busy _ _ s' => serve (message S) ms s w = (some s', x.world)
  | .dead => serve (message S) ms s w = (none, x.world)
  | .stopped => ∃ s' w', serve (message S) ms s w = (some s', w') ∧ (S.stop s' w').2 = x.world

/-- What a run shows of the actor and of its clients. -/
structure Sequential (S : Service Q R σ W) (clients : ι → Client Q R) (s : σ) (w : W)
    (t : List (Label ι Q R)) (x : Net ι Q R σ W) : Prop where
  /-- The requests are handled in the order they were sent, each once. -/
  order : InOrder t x
  /-- Handling them is running the loop over them. -/
  state : Served S s w (messages t) x
  /-- Each answer is the one the loop gives at that place. -/
  answers : ∀ pre i c, pre ++ [.answer i c] <+: t → ∃ s₁ w₁ s₂ w₂,
    serve (message S) (messages pre) s w = (some s₁, w₁) ∧
      S.process c.1 true s₁ w₁ = (some (s₂, c.2), w₂)
  /-- Each client sees an execution of its program. -/
  client : ∀ i, Shows (clients i) (requestsOf i (sent t)) (returned i t) (x.clients i)

omit [DecidableEq ι] in
theorem message_some {q : Q} {heard : Bool} {s s' : σ} {r : R q} {w w' : W}
    (h : S.process q heard s w = (some (s', r), w')) :
    message S (q, heard) s w = (some s', w') := Code.bind_some h

omit [DecidableEq ι] in
theorem message_none {q : Q} {heard : Bool} {s : σ} {w w' : W}
    (h : S.process q heard s w = (none, w')) : message S (q, heard) s w = (none, w') :=
  Code.bind_none h

/-- The loop handles one more message. -/
theorem serve_snoc {ms : List (Q × Bool)} {m : Q × Bool} {s s₁ : σ} {w w₁ : W}
    (h : serve (message S) ms s w = (some s₁, w₁)) :
    serve (message S) (ms ++ [m]) s w = message S m s₁ w₁ := by
  rw [serve_concat, Code.bind_some h]

theorem InOrder.step (h : InOrder t x) (hs : Step S cap x l y) : InOrder (t ++ [l]) y := by
  obtain ⟨rest, hsent, hrest⟩ := h
  unfold InOrder
  rw [sent_snoc, served_snoc, hsent]
  have hopen : x.actor.isOpen = true → rest = x.pending := fun ho => hrest fun he => by
    rw [he] at ho
    cases ho
  cases hs with
  | @tell i q k r hc ht ho hroom =>
    exact ⟨rest ++ [(i, q)], by simp [Label.sent, Label.handled],
      fun _ => by rw [hopen ho]; exact List.append_assoc _ _ _⟩
  | @ask i q k hc ht ho hroom =>
    exact ⟨rest ++ [(i, q)], by simp [Label.sent, Label.handled],
      fun _ => by rw [hopen ho]; exact List.append_assoc _ _ _⟩
  | refuse _ _ | panic _ | lose _ _ | cancel _ =>
    exact ⟨rest, by simp [Label.sent, Label.handled], hrest⟩
  | @take i q s rest' ha hq =>
    refine ⟨rest, by simp [Label.sent, Label.handled], fun _ => ?_⟩
    rw [hopen (by rw [ha]; rfl)]
    simp [Net.pending, ha, hq, Actor.inHand]
  | @answer i q k s s' r w ha hc ht hp =>
    refine ⟨x.queue, ?_, fun _ => rfl⟩
    rw [hopen (by rw [ha]; rfl)]
    simp [Label.sent, Label.handled, Net.pending, ha, Actor.inHand]
  | @serve i q s s' r w ha hno hp =>
    refine ⟨x.queue, ?_, fun _ => rfl⟩
    rw [hopen (by rw [ha]; rfl)]
    simp [Label.sent, Label.handled, Net.pending, ha, Actor.inHand]
  | @crash i q s heard w ha hh hp hgone =>
    refine ⟨x.queue, ?_, fun hne => absurd rfl hne⟩
    rw [hopen (by rw [ha]; rfl)]
    simp [Label.sent, Label.handled, Net.pending, ha, Actor.inHand]
  | @close s o w ha hq hall hp =>
    refine ⟨rest, by simp [Label.sent, Label.handled], fun _ => ?_⟩
    rw [hopen (by rw [ha]; rfl)]
    simp [Net.pending, ha, Actor.inHand]

theorem Served.step {s : σ} {w : W} (h : Served S s w (messages t) x) (hs : Step S cap x l y) :
    Served S s w (messages (t ++ [l])) y := by
  have hsame : l.handled = none → messages (t ++ [l]) = messages t := fun hl => by
    simp [messages_snoc, hl]
  unfold Served at h ⊢
  cases hs with
  | tell _ _ _ _ | ask _ _ _ _ | refuse _ _ | panic _ | lose _ _ | cancel _ =>
    rw [hsame rfl]
    exact h
  | take ha hq =>
    rw [ha] at h
    rw [hsame rfl]
    exact h
  | answer ha hc ht hp =>
    rw [ha] at h
    rw [messages_snoc]
    exact (serve_snoc h).trans (message_some hp)
  | serve ha hno hp =>
    rw [ha] at h
    rw [messages_snoc]
    exact (serve_snoc h).trans (message_some hp)
  | crash ha hh hp hgone =>
    rw [ha] at h
    rw [messages_snoc]
    exact (serve_snoc h).trans (message_none hp)
  | close ha hq hall hp =>
    rw [ha] at h
    rw [hsame rfl]
    exact ⟨_, _, h, by rw [hp]⟩

theorem requestsOf_snoc (i : ι) (l : List (ι × Q)) (j : ι) (q : Q) :
    requestsOf i (l ++ [(j, q)]) = requestsOf i l ++ if j = i then [q] else [] := by
  unfold requestsOf
  by_cases h : j = i <;> simp [h]

theorem Shows.step {c : ι → Client Q R}
    (h : ∀ i, Shows (c i) (requestsOf i (sent t)) (returned i t) (x.clients i))
    (hs : Step S cap x l y) (i : ι) :
    Shows (c i) (requestsOf i (sent (t ++ [l]))) (returned i (t ++ [l])) (y.clients i) := by
  have hi := h i
  rw [returned_snoc, sent_snoc]
  have hself : ∀ {j : ι} {a : Status Q R}, j = i → (x.setClient j a).clients i = a := by
    rintro j a rfl
    exact Function.update_self _ _ _
  have hother : ∀ {j : ι} {a : Status Q R}, j ≠ i → (x.setClient j a).clients i = x.clients i :=
    fun hj => Function.update_of_ne (Ne.symm hj) _ _
  have hgone : ∀ {j : ι}, Shows (c i) (requestsOf i (sent t)) (returned i t)
      ((x.setClient j .gone).clients i) := by
    intro j
    by_cases hj : j = i
    · rw [hself hj]
      exact hi.gone
    · rw [hother hj]
      exact hi
  cases hs with
  | @tell j q k r hc ht ho hroom =>
    simp only [Label.sent, Label.returned, Option.toList_some, requestsOf_snoc]
    by_cases hj : j = i
    · subst hj
      rw [hc] at hi
      simp only [if_true, Option.toList_some]
      change Shows _ _ _ ((x.setClient j _).clients j)
      rw [hself rfl]
      exact ⟨.call hi.1 r, by rw [hi.2, List.map_append]; rfl⟩
    · change Shows _ _ _ ((x.setClient j _).clients i)
      rw [hother hj]
      simpa [hj] using hi
  | @ask j q k hc ht ho hroom =>
    simp only [Label.sent, Label.returned, Option.toList_some, requestsOf_snoc]
    by_cases hj : j = i
    · subst hj
      rw [hc] at hi
      simp only [if_true, Option.toList_none, List.append_nil]
      change Shows _ _ _ ((x.setClient j _).clients j)
      rw [hself rfl]
      exact ⟨hi.1, by rw [hi.2]⟩
    · change Shows _ _ _ ((x.setClient j _).clients i)
      rw [hother hj]
      simpa [hj] using hi
  | @answer j q k s s' r w ha hc ht hp =>
    simp only [Label.sent, Label.returned, Option.toList_none, List.append_nil]
    by_cases hj : j = i
    · subst hj
      rw [hc] at hi
      simp only [if_true, Option.toList_some]
      change Shows _ _ _ ((x.setClient j _).clients j)
      rw [hself rfl]
      exact ⟨.call hi.1 r, by rw [hi.2, List.map_append]; rfl⟩
    · change Shows _ _ _ ((x.setClient j _).clients i)
      rw [hother hj]
      simpa [hj] using hi
  | refuse _ _ | panic _ | lose _ _ | cancel _ => simpa [Label.sent, Label.returned] using hgone
  | take _ _ | serve _ _ _ | crash _ _ _ _ | close _ _ _ _ =>
    simpa [Label.sent, Label.returned] using hi

/-- **The actor is sequential**, in every run: it handles the requests in the order they were sent,
one after the other, and every client sees an execution of its own program. -/
theorem sequential {c : ι → Client Q R} {s : σ} {w : W} (h : Run S cap (start c s w) t x) :
    Sequential S c s w t x := by
  induction h with
  | refl =>
    refine ⟨⟨[], rfl, fun _ => rfl⟩, rfl, fun pre i c hpre => ?_, fun i => ⟨.refl, rfl⟩⟩
    exact absurd (List.prefix_nil.mp hpre) (by simp)
  | @tail t y z l h hs ih =>
    refine ⟨ih.order.step hs, ih.state.step hs, fun pre i c hpre => ?_, Shows.step ih.client hs⟩
    rcases List.prefix_concat_iff.mp hpre with heq | hpre
    · obtain ⟨rfl, hl⟩ := List.append_inj' heq rfl
      obtain rfl := (List.cons.inj hl).1
      have hstate := ih.state
      unfold Served at hstate
      cases hs with
      | answer ha hc ht hp =>
        rw [ha] at hstate
        exact ⟨_, _, _, _, hstate, hp⟩
    · exact ih.answers pre i c hpre

/-- The request in hand is the next one that was sent. -/
theorem served_next {c : ι → Client Q R} {s s' : σ} {w : W} {i : ι} {q : Q}
    (h : Run S cap (start c s w) t x) (ha : x.actor = .busy i q s') :
    served t ++ [(i, q)] <+: sent t := by
  obtain ⟨rest, hall, hrest⟩ := (sequential h).order
  refine ⟨x.queue, ?_⟩
  rw [hall, hrest (by rw [ha]; exact nofun), Net.pending, ha, List.append_assoc]
  rfl

/-- The requests of a client are handled in the order of its program. -/
theorem Sequential.served_sends {c : ι → Client Q R} {s : σ} {w : W} (h : Sequential S c s w t x)
    {i : ι} {ms : List Q} (hm : Makes (c i) ms) : requestsOf i (served t) <+: ms := by
  obtain ⟨rest, hsent, -⟩ := h.order
  refine List.IsPrefix.trans ?_ (hm.sends (h.client i))
  rw [hsent]
  exact ((List.prefix_append _ _).filter _).map _

/-- A client that has panicked did so by its program. -/
theorem does_panic {c : ι → Client Q R} {s : σ} {w : W} {i : ι} (h : Run S cap (start c s w) t x)
    (hi : .panic i ∈ t) : ∃ v, Does (c i) v .panic ∧ v <+: returned i t := by
  induction h with
  | refl => cases hi
  | @tail t y z l hrun hs ih =>
    rw [returned_snoc]
    rcases List.mem_append.mp hi with hi | hi
    · obtain ⟨v, hv, hpre⟩ := ih hi
      exact ⟨v, hv, hpre.trans (List.prefix_append _ _)⟩
    · obtain rfl := List.mem_singleton.mp hi
      cases hs with
      | panic hc =>
        have hshows := (sequential hrun).client i
        rw [hc] at hshows
        exact ⟨returned i t, hshows.1, List.prefix_append _ _⟩

/-- What a request returns that wants an answer is the answer. -/
theorem answer_of_returned {i : ι} {r : Σ q, R q} (h : Run S cap y t x) (ht : S.told r.1 = none)
    (hr : r ∈ returned i t) : .answer i r ∈ t := by
  induction h with
  | refl => cases hr
  | @tail t x z l _ hs ih =>
    rw [returned_snoc, List.mem_append, Option.mem_toList] at hr
    rcases hr with hr | hr
    · exact List.mem_append_left _ (ih hr)
    · cases hs with
      | tell _ htold _ _ =>
        obtain ⟨rfl, he⟩ := Option.ite_none_right_eq_some.mp hr
        cases he
        cases ht.symm.trans htold
      | answer _ _ _ _ =>
        obtain ⟨rfl, he⟩ := Option.ite_none_right_eq_some.mp hr
        cases he
        simp
      | ask _ _ _ _ | refuse _ _ | panic _ | take _ _ | serve _ _ _ | crash _ _ _ _ | lose _ _
      | cancel _ | close _ _ _ _ => cases hr

/-! ## A client waits for the one request it has sent -/

/-- The requests of a client, of those, that it wants an answer to. -/
def asksOf (S : Service Q R σ W) (i : ι) (l : List (ι × Q)) : List Q :=
  (l.filter fun p => decide (p.1 = i) && (S.told p.2).isNone).map Prod.snd

theorem asksOf_append (i : ι) (l m : List (ι × Q)) :
    asksOf S i (l ++ m) = asksOf S i l ++ asksOf S i m := by
  simp [asksOf]

theorem asksOf_self {i : ι} {q : Q} (h : S.told q = none) (l : List (ι × Q)) :
    asksOf S i ((i, q) :: l) = q :: asksOf S i l := by
  simp [asksOf, h]

theorem asksOf_other {i j : ι} {q : Q} (h : j ≠ i ∨ S.told q ≠ none) (l : List (ι × Q)) :
    asksOf S i ((j, q) :: l) = asksOf S i l := by
  unfold asksOf
  rw [List.filter_cons_of_neg]
  rcases h with h | h
  · simp [h]
  · simp [Option.isNone_iff_eq_none, h]

/-- A client that waits has one request pending, and one that is ready none. -/
def Waits (S : Service Q R σ W) (x : Net ι Q R σ W) (i : ι) : Prop :=
  match x.clients i with
  | .ready _ => asksOf S i x.pending = []
  | .waiting q _ => S.told q = none ∧ (x.actor.isOpen = true → asksOf S i x.pending = [q])
  | .gone => True

theorem Waits.congr {i : ι} (h : Waits S x i) (hc : y.clients i = x.clients i)
    (hp : asksOf S i y.pending = asksOf S i x.pending)
    (ho : y.actor.isOpen = true → x.actor.isOpen = true) : Waits S y i := by
  unfold Waits at h ⊢
  rw [hc, hp]
  cases hx : x.clients i with
  | ready c =>
    rw [hx] at h
    exact h
  | waiting q k =>
    rw [hx] at h
    exact ⟨h.1, fun hy => h.2 (ho hy)⟩
  | gone => trivial

theorem waits_gone {i : ι} (h : y.clients i = .gone) : Waits S y i := by
  unfold Waits
  rw [h]
  trivial

/-- A request that is handled for nobody, though an answer was wanted, is that of a client that is
gone. -/
theorem gone_of_not_heard {i : ι} {q : Q} {s : σ} (h : Waits S x i) (ha : x.actor = .busy i q s)
    (ht : S.told q = none) (hno : ¬ x.Awaited S i q) : x.clients i = .gone := by
  have hpending : asksOf S i x.pending = q :: asksOf S i x.queue := by
    unfold Net.pending
    rw [ha]
    exact asksOf_self ht _
  unfold Waits at h
  rw [hpending] at h
  cases hc : x.clients i with
  | ready c =>
    rw [hc] at h
    exact absurd h (by simp)
  | waiting q' k =>
    rw [hc, ha] at h
    obtain ⟨rfl, -⟩ := List.cons.inj (h.2 rfl)
    exact absurd ⟨ht, k, hc⟩ hno
  | gone => rfl

theorem Waits.step (h : ∀ i, Waits S x i) (hs : Step S cap x l y) (i : ι) : Waits S y i := by
  have hself : ∀ {j : ι} {a : Status Q R}, j = i → (x.setClient j a).clients i = a := by
    rintro j a rfl
    exact Function.update_self _ _ _
  have hother : ∀ {j : ι} {a : Status Q R}, j ≠ i → (x.setClient j a).clients i = x.clients i :=
    fun hj => Function.update_of_ne (Ne.symm hj) _ _
  have hgone : ∀ {j : ι}, Waits S (x.setClient j .gone) i := by
    intro j
    by_cases hj : j = i
    · exact waits_gone (hself hj)
    · exact (h i).congr (hother hj) rfl id
  -- a request at the end of the queue
  have hqueue : ∀ {j : ι} {q : Q} {a : Status Q R},
      Net.pending { x.setClient j a with queue := x.queue ++ [(j, q)] } = x.pending ++ [(j, q)] :=
    (List.append_assoc _ _ _).symm
  -- the request in hand is taken off
  have hhand : ∀ {j : ι} {q : Q} {s : σ}, x.actor = .busy j q s →
      x.pending = (j, q) :: x.queue := fun ha => by
    unfold Net.pending
    rw [ha]
    rfl
  cases hs with
  | @tell j q k r hc ht ho hroom =>
    have hasks : asksOf S i (x.pending ++ [(j, q)]) = asksOf S i x.pending := by
      rw [asksOf_append, asksOf_other (Or.inr (by rw [ht]; simp))]
      exact List.append_nil _
    by_cases hj : j = i
    · subst hj
      have hi := h j
      unfold Waits at hi ⊢
      rw [hc] at hi
      rw [hqueue, hasks]
      simp only [hself rfl]
      exact hi
    · refine (h i).congr (hother hj) ?_ id
      rw [hqueue, hasks]
  | @ask j q k hc ht ho hroom =>
    by_cases hj : j = i
    · subst hj
      have hi := h j
      unfold Waits at hi ⊢
      rw [hc] at hi
      rw [hqueue, asksOf_append, hi, asksOf_self ht]
      simp only [hself rfl]
      exact ⟨ht, fun _ => rfl⟩
    · refine (h i).congr (hother hj) ?_ id
      rw [hqueue, asksOf_append, asksOf_other (Or.inl hj)]
      exact List.append_nil _
  | refuse _ _ | panic _ | lose _ _ | cancel _ => exact hgone
  | @take j q s rest ha hq =>
    refine (h i).congr rfl ?_ fun _ => by rw [ha]; rfl
    simp [Net.pending, ha, hq, Actor.inHand]
  | @answer j q k s s' r w ha hc ht hp =>
    by_cases hj : j = i
    · subst hj
      have hi := h j
      unfold Waits at hi ⊢
      rw [hc, hhand ha, asksOf_self ht, ha] at hi
      simp only [hself rfl]
      exact (List.cons.inj (hi.2 rfl)).2
    · refine (h i).congr (hother hj) ?_ fun _ => by rw [ha]; rfl
      rw [hhand ha, asksOf_other (Or.inl hj)]
      rfl
  | @serve j q s s' r w ha hno hp =>
    by_cases hgo : j = i ∧ S.told q = none
    · obtain ⟨rfl, ht⟩ := hgo
      have hg := gone_of_not_heard (h j) ha ht hno
      exact waits_gone hg
    · refine (h i).congr rfl ?_ fun _ => by rw [ha]; rfl
      rw [hhand ha, asksOf_other (not_and_or.mp hgo)]
      rfl
  | @crash j q s heard w ha hh hp hgone =>
    have hi := h i
    unfold Waits at hi ⊢
    cases hc : x.clients i with
    | ready c => rfl
    | waiting q' k =>
      rw [hc] at hi
      exact ⟨hi.1, nofun⟩
    | gone => trivial
  | @close s o w ha hq hall hp =>
    refine (h i).congr rfl ?_ fun ho => by cases ho
    simp [Net.pending, ha, Actor.inHand]

theorem waits {c : ι → Client Q R} {s : σ} {w : W} (h : Run S cap (start c s w) t x) (i : ι) :
    Waits S x i := by
  induction h generalizing i with
  | refl => rfl
  | tail _ hs ih => exact Waits.step ih hs i

theorem requestsOf_append (i : ι) (l m : List (ι × Q)) :
    requestsOf i (l ++ m) = requestsOf i l ++ requestsOf i m := by
  simp [requestsOf]

/-- A request that wants an answer is among those that do. -/
theorem mem_asksOf {i : ι} {q : Q} {l : List (ι × Q)} (ht : S.told q = none)
    (h : q ∈ requestsOf i l) : q ∈ asksOf S i l := by
  obtain ⟨⟨j, p⟩, hmem, rfl⟩ := List.mem_map.mp h
  obtain ⟨hmem, hj⟩ := List.mem_filter.mp hmem
  refine List.mem_map.mpr ⟨(j, p), List.mem_filter.mpr ⟨hmem, ?_⟩, rfl⟩
  rw [show S.told (j, p).2 = none from ht]
  exact Bool.and_eq_true_iff.mpr ⟨hj, rfl⟩

/-- **An answer is a barrier**: all that the client had sent is handled by then. -/
theorem requestsOf_answer {c : ι → Client Q R} {s : σ} {w : W} {i : ι} {r : Σ q, R q}
    (h : Run S cap (start c s w) t x) (hs : Step S cap x (.answer i r) y) :
    requestsOf i (served (t ++ [.answer i r])) = requestsOf i (sent t) := by
  obtain ⟨⟨rest, hsent, hrest⟩, -, -, hclient⟩ := sequential h
  have hshows := hclient i
  have hwaits := waits h i
  cases hs with
  | @answer i q k s₁ s₂ r w₁ ha hc ht hp =>
    have hpending : x.pending = (i, q) :: x.queue := by
      unfold Net.pending
      rw [ha]
      rfl
    rw [hrest (by rw [ha]; exact nofun), hpending] at hsent
    have hsplit : requestsOf i (sent t) =
        requestsOf i (served t) ++ q :: requestsOf i x.queue := by
      rw [hsent, requestsOf_append]
      simp [requestsOf]
    have hserved : requestsOf i (served (t ++ [.answer i ⟨q, r⟩])) =
        requestsOf i (served t) ++ [q] := by
      rw [served_snoc, requestsOf_append]
      simp [requestsOf, Label.handled]
    rw [hserved, hsplit]
    rcases List.eq_nil_or_concat (requestsOf i x.queue) with hnil | ⟨l, a, hl⟩
    · rw [hnil]
    · -- the last request the client has sent is the one it waits for, and no other like it is
      -- pending
      rw [hc] at hshows
      obtain ⟨-, hlast⟩ := hshows
      rw [hsplit, hl, List.concat_eq_append, ← List.cons_append, ← List.append_assoc] at hlast
      obtain rfl := (List.cons.inj (List.append_inj' hlast rfl).2).1
      unfold Waits at hwaits
      rw [hc, ha, hpending, asksOf_self ht] at hwaits
      have hmem : a ∈ asksOf S i x.queue := mem_asksOf ht (by rw [hl]; simp)
      rw [(List.cons.inj (hwaits.2 rfl)).2] at hmem
      exact absurd hmem List.not_mem_nil

/-! ## How runs end -/

/-- Everybody is through. -/
def Net.Through (x : Net ι Q R σ W) : Prop :=
  x.actor.isOpen = false ∧ ∀ i, (x.clients i).Finished

/-- The actor waits for ever. -/
def Net.Stuck (S : Service Q R σ W) (x : Net ι Q R σ W) : Prop :=
  ∃ i q s heard w, x.actor = .busy i q s ∧ (heard = true ↔ x.Awaited S i q) ∧
    S.process q heard s x.world = (none, w) ∧ S.stuck w = true

theorem goes_on_of_busy {i : ι} {q : Q} {s : σ} (ha : x.actor = .busy i q s) :
    (∃ l y, Step S cap x l y ∧ ∀ j, l ≠ .cancel j) ∨ x.Stuck S := by
  by_cases hh : x.Awaited S i q
  · obtain ⟨ht, k, hc⟩ := hh
    rcases hp : S.process q true s x.world with ⟨_ | ⟨s', r⟩, w⟩
    · have hheard : true = true ↔ x.Awaited S i q := iff_of_true rfl ⟨ht, k, hc⟩
      cases hw : S.stuck w with
      | true => exact Or.inr ⟨i, q, s, true, w, ha, hheard, hp, hw⟩
      | false => exact Or.inl ⟨_, _, .crash ha hheard hp hw, nofun⟩
    · exact Or.inl ⟨_, _, .answer ha hc ht hp, nofun⟩
  · rcases hp : S.process q false s x.world with ⟨_ | ⟨s', r⟩, w⟩
    · have hheard : false = true ↔ x.Awaited S i q := iff_of_false Bool.false_ne_true hh
      cases hw : S.stuck w with
      | true => exact Or.inr ⟨i, q, s, false, w, ha, hheard, hp, hw⟩
      | false => exact Or.inl ⟨_, _, .crash ha hheard hp hw, nofun⟩
    · exact Or.inl ⟨_, _, .serve ha hh hp, nofun⟩

/-- A client that is not through can go on, or waits for the actor. -/
theorem goes_on_of_client {i : ι} (hf : ¬ (x.clients i).Finished)
    (hroom : x.actor.isOpen = true → x.queue.length < cap) :
    (∃ l y, Step S cap x l y ∧ ∀ j, l ≠ .cancel j) ∨
      x.actor.isOpen = true ∧ ∃ q k, x.clients i = .waiting q k := by
  cases hc : x.clients i with
  | gone => exact absurd (Or.inr hc) hf
  | waiting q k =>
    cases ho : x.actor.isOpen with
    | false => exact Or.inl ⟨_, _, .lose hc ho, nofun⟩
    | true => exact Or.inr ⟨rfl, q, k, rfl⟩
  | ready c =>
    refine Or.inl ?_
    cases c with
    | done => exact absurd (Or.inl hc) hf
    | panic => exact ⟨_, _, .panic hc, nofun⟩
    | call q k =>
      cases ho : x.actor.isOpen with
      | false => exact ⟨_, _, .refuse hc ho, nofun⟩
      | true =>
        cases ht : S.told q with
        | none => exact ⟨_, _, .ask hc ht ho (hroom ho), nofun⟩
        | some r => exact ⟨_, _, .tell hc ht ho (hroom ho), nofun⟩

/-- **A run goes on** until everybody is through, although no client is cancelled, unless the actor
waits for ever. -/
theorem channel_goes_on {c : ι → Client Q R} {s : σ} {w : W} (hcap : 0 < cap)
    (h : Run S cap (start c s w) t x) :
    (∃ l y, Step S cap x l y ∧ ∀ i, l ≠ .cancel i) ∨ x.Through ∨ x.Stuck S := by
  by_cases hall : ∀ i, (x.clients i).Finished
  · cases ha : x.actor with
    | busy i q s => exact (goes_on_of_busy ha).imp_right Or.inr
    | stopped | dead => exact Or.inr (Or.inl ⟨by rw [ha]; rfl, hall⟩)
    | idle s' =>
      refine Or.inl ?_
      cases hq : x.queue with
      | nil => exact ⟨_, _, .close ha hq hall rfl, nofun⟩
      | cons p rest => exact ⟨_, _, .take ha hq, nofun⟩
  · obtain ⟨i, hi⟩ := not_forall.mp hall
    cases ha : x.actor with
    | busy j q s => exact (goes_on_of_busy ha).imp_right Or.inr
    | stopped | dead =>
      have hno : x.actor.isOpen = false := by rw [ha]; rfl
      refine (goes_on_of_client hi fun ho => ?_).elim Or.inl fun ⟨ho, _⟩ => ?_ <;>
      · rw [hno] at ho
        cases ho
    | idle s' =>
      refine Or.inl ?_
      cases hq : x.queue with
      | cons p rest => exact ⟨_, _, .take ha hq, nofun⟩
      | nil =>
        -- the queue is empty, so nobody waits
        refine (goes_on_of_client hi fun _ => by rw [hq]; exact hcap).elim id fun ⟨ho, q, k, hc⟩ => ?_
        have hw := waits h i
        unfold Waits Net.pending at hw
        rw [hc, ha, hq] at hw
        have hnil : ([] : List Q) = [q] := hw.2 rfl
        cases hnil

/-- An actor that will wait for ever, whoever is cancelled, handles nothing more. -/
theorem Run.stuck {i : ι} {q : Q} {s : σ} {u : List (Label ι Q R)} (ha : x.actor = .busy i q s)
    (hp : ∀ heard, ∃ w, S.process q heard s x.world = (none, w) ∧ S.stuck w = true)
    (h : Run S cap x u z) : z.actor = x.actor ∧ z.world = x.world ∧ handled u = [] := by
  induction h with
  | refl => exact ⟨rfl, rfl, rfl⟩
  | @tail u y z l _ hs ih =>
    obtain ⟨hactor, hworld, hhandled⟩ := ih
    have hbusy : y.actor = .busy i q s := hactor.trans ha
    have hnone : ∀ {heard w o}, S.process q heard s y.world = (o, w) →
        o = none ∧ S.stuck w = true := by
      intro heard w o ho
      obtain ⟨w', hw, hstuck⟩ := hp heard
      rw [hworld, hw] at ho
      cases ho
      exact ⟨rfl, hstuck⟩
    have hopen : ∀ {P : Prop}, y.actor.isOpen = false → P := fun ho => by
      rw [hbusy] at ho
      cases ho
    rw [handled_snoc, hhandled]
    cases hs with
    | tell _ _ _ _ | ask _ _ _ _ | panic _ | cancel _ => exact ⟨hactor, hworld, rfl⟩
    | refuse _ ho | lose _ ho => exact hopen ho
    | take ha' _ | close ha' _ _ _ => cases hbusy.symm.trans ha'
    | answer ha' _ _ hp' | serve ha' _ hp' =>
      cases hbusy.symm.trans ha'
      cases (hnone hp').1
    | crash ha' _ hp' hgone =>
      cases hbusy.symm.trans ha'
      cases hgone.symm.trans (hnone hp').2

/-- A client goes on. -/
inductive Status.After : Status Q R → Status Q R → Prop
  | told {q : Q} {k : R q → Client Q R} {r : R q} : After (.ready (k r)) (.ready (.call q k))
  | sent {q : Q} {k : R q → Client Q R} : After (.waiting q k) (.ready (.call q k))
  | answered {q : Q} {k : R q → Client Q R} {r : R q} : After (.ready (k r)) (.waiting q k)
  | gone {a : Status Q R} (h : a ≠ .gone) : After .gone a

theorem acc_gone : Acc Status.After (.gone : Status Q R) := by
  refine .intro _ fun b h => ?_
  cases h with
  | gone h => exact absurd rfl h

theorem acc_ready : ∀ c : Client Q R, Acc Status.After (.ready c)
  | .done => .intro _ fun b h => by
    cases h
    exact acc_gone
  | .panic => .intro _ fun b h => by
    cases h
    exact acc_gone
  | .call q k => by
    have hwait : Acc Status.After (.waiting q k) := .intro _ fun b h => by
      cases h with
      | answered => exact acc_ready (k _)
      | gone _ => exact acc_gone
    refine .intro _ fun b h => ?_
    cases h with
    | told => exact acc_ready (k _)
    | sent => exact hwait
    | gone _ => exact acc_gone

theorem after_wellFounded : WellFounded (Status.After (Q := Q) (R := R)) := by
  refine ⟨fun a => ?_⟩
  cases a with
  | ready c => exact acc_ready c
  | gone => exact acc_gone
  | waiting q k => exact (acc_ready (.call q k)).inv .sent

/-- What the actor has left to do. -/
def Net.left (x : Net ι Q R σ W) : Nat :=
  match x.actor with
  | .idle _ => 2 * x.queue.length + 1
  | .busy _ _ _ => 2 * x.queue.length + 2
  | .stopped | .dead => 0

/-- A step takes one client further, or the actor, which leaves the clients alone. -/
theorem Step.after (hs : Step S cap x l y) :
    (∃ i a, Status.After a (x.clients i) ∧ y.clients = Function.update x.clients i a) ∨
      y.clients = x.clients ∧ y.left < x.left := by
  cases hs with
  | @tell i q k r hc _ _ _ => exact Or.inl ⟨i, _, by rw [hc]; exact .told, rfl⟩
  | @ask i q k hc _ _ _ => exact Or.inl ⟨i, _, by rw [hc]; exact .sent, rfl⟩
  | @refuse i _ _ hc _ | @panic i hc | @lose i _ _ hc _ =>
    exact Or.inl ⟨i, .gone, by rw [hc]; exact .gone nofun, rfl⟩
  | @cancel i hc => exact Or.inl ⟨i, .gone, .gone fun he => hc (Or.inr he), rfl⟩
  | @answer i q k _ _ r _ _ hc _ _ => exact Or.inl ⟨i, _, by rw [hc]; exact .answered, rfl⟩
  | take ha hq =>
    refine Or.inr ⟨rfl, ?_⟩
    simp only [Net.left, ha, hq, List.length_cons]
    omega
  | serve ha _ _ =>
    refine Or.inr ⟨rfl, ?_⟩
    simp only [Net.left, ha]
    omega
  | crash ha _ _ _ | close ha _ _ _ =>
    refine Or.inr ⟨rfl, ?_⟩
    simp only [Net.left, ha]
    omega

/-- **No run lasts for ever**, whatever the clients and the service. -/
theorem channel_ends [Fintype ι] (S : Service Q R σ W) (cap : Nat) :
    WellFounded fun y x : Net ι Q R σ W => ∃ l, Step S cap x l y := by
  refine Subrelation.wf ?_ (InvImage.wf
    (fun x : Net ι Q R σ W => ((Finset.univ : Finset ι).toList.map x.clients, x.left))
    ((chip_wellFounded after_wellFounded).prod_lex wellFounded_lt))
  rintro y x ⟨l, hs⟩
  rcases hs.after with ⟨i, a, ha, hy⟩ | ⟨hy, hlt⟩
  · refine .left _ _ ?_
    rw [hy]
    refine chip_map (Finset.nodup_toList _) (Finset.mem_toList.mpr (Finset.mem_univ i)) ?_
      fun j hj => Function.update_of_ne hj _ _
    rwa [Function.update_self]
  · change Prod.Lex _ _ (_, _) (_, _)
    rw [hy]
    exact .right _ hlt

/-- **Every run comes to an end**, without a cancellation: everybody is through, or the actor waits for
ever. -/
theorem channel_comes_to_rest [Finite ι] {c : ι → Client Q R} {s : σ} {w : W} (hcap : 0 < cap)
    (h : Run S cap (start c s w) t x) : ∃ u z, Run S cap x u z ∧ (∀ i, .cancel i ∉ u) ∧
      (z.Through ∨ z.Stuck S) := by
  obtain ⟨_⟩ := nonempty_fintype ι
  have hends : WellFounded fun y x : Net ι Q R σ W => ∃ l, Step S cap x l y := channel_ends S cap
  induction x using hends.induction generalizing t with
  | _ x ih =>
    rcases channel_goes_on hcap h with ⟨l, y, hs, hl⟩ | hrest
    · obtain ⟨u, z, hu, hno, hrest⟩ := ih y ⟨l, hs⟩ (h.tail hs)
      refine ⟨l :: u, z, (Run.refl.tail hs).trans hu, fun i hi => ?_, hrest⟩
      rcases List.mem_cons.mp hi with he | hi
      · exact hl i he.symm
      · exact hno i hi
    · exact ⟨[], x, .refl, by simp, hrest⟩

/-! ## An abandoned request -/

/-- The actor does not go on when nobody waits for the answer. -/
def Strict (S : Service Q R σ W) : Prop :=
  ∀ q s w, S.told q = none → (S.process q false s w).1 = none

/-- The requests handled without a panic, in order. -/
def completed (t : List (Label ι Q R)) : List (ι × Q) :=
  t.filterMap fun
    | .answer i c => some (i, c.1)
    | .serve i q => some (i, q)
    | _ => none

omit [DecidableEq ι] in
theorem completed_snoc (t : List (Label ι Q R)) (l : Label ι Q R) :
    completed (t ++ [l]) = completed t ++ completed [l] := List.filterMap_append

/-- What was ahead of an abandoned request is all that is handled, and then the actor crashes. -/
def Abandoned (ahead : List (ι × Q)) (i : ι) (q : Q) (u : List (Label ι Q R))
    (z : Net ι Q R σ W) : Prop :=
  z.clients i = .gone ∧
    ((∃ left behind, z.pending = left ++ (i, q) :: behind ∧ ahead = completed u ++ left) ∨
      z.actor = .dead ∧ completed u <+: ahead)

theorem Abandoned.step {ahead : List (ι × Q)} {i : ι} {q : Q} (hS : Strict S)
    (hq : S.told q = none) (h : Abandoned ahead i q t x) (hs : Step S cap x l y) :
    Abandoned ahead i q (t ++ [l]) y := by
  obtain ⟨hgone, h⟩ := h
  -- the client stays gone
  have hstay : y.clients i = .gone := by
    rcases hs.after with ⟨j, a, ha, hy⟩ | ⟨hy, -⟩
    · rw [hy]
      by_cases hj : j = i
      · subst hj
        rw [hgone] at ha
        cases ha with
        | gone hne => exact absurd rfl hne
      · rw [Function.update_of_ne (Ne.symm hj)]
        exact hgone
    · rw [hy]
      exact hgone
  refine ⟨hstay, ?_⟩
  rw [completed_snoc]
  rcases h with ⟨left, behind, hp, hahead⟩ | ⟨hdead, hpre⟩
  · have hhand : ∀ {j : ι} {p : Q} {s : σ}, x.actor = .busy j p s →
        (j, p) :: x.queue = left ++ (i, q) :: behind := fun ha => by
      rw [← hp]
      unfold Net.pending
      rw [ha]
      rfl
    -- the request in hand is one that was ahead
    have hnext : ∀ {j : ι} {p : Q} {s : σ}, x.actor = .busy j p s → (j, p) ≠ (i, q) →
        ∃ left', left = (j, p) :: left' ∧ x.queue = left' ++ (i, q) :: behind := by
      intro j p s ha hne
      have hh := hhand ha
      cases left with
      | nil => exact absurd (List.cons.inj hh).1 hne
      | cons b left' =>
        obtain ⟨rfl, hrest⟩ := List.cons.inj hh
        exact ⟨left', rfl, hrest⟩
    cases hs with
    | @tell j p k r _ _ _ _ | @ask j p k _ _ _ _ =>
      refine Or.inl ⟨left, behind ++ [(j, p)], ?_, by simpa [completed] using hahead⟩
      refine (List.append_assoc _ _ _).symm.trans ?_
      change x.pending ++ [(j, p)] = _
      rw [hp, List.append_assoc]
      rfl
    | refuse _ _ | panic _ | lose _ _ | cancel _ =>
      exact Or.inl ⟨left, behind, hp, by simpa [completed] using hahead⟩
    | take ha hqueue =>
      refine Or.inl ⟨left, behind, ?_, by simpa [completed] using hahead⟩
      rw [← hp]
      simp [Net.pending, ha, hqueue, Actor.inHand]
    | @answer j p k s s' r w ha hc ht hpr =>
      obtain ⟨left', rfl, hrest⟩ := hnext ha (by
        rintro ⟨⟩
        rw [hgone] at hc
        cases hc)
      exact Or.inl ⟨left', behind, hrest, by simpa [completed] using hahead⟩
    | @serve j p s s' r w ha hno hpr =>
      obtain ⟨left', rfl, hrest⟩ := hnext ha (by
        rintro ⟨⟩
        have := hS q s x.world hq
        rw [hpr] at this
        cases this)
      exact Or.inl ⟨left', behind, hrest, by simpa [completed] using hahead⟩
    | crash _ _ _ _ =>
      refine Or.inr ⟨rfl, ?_⟩
      rw [hahead]
      simp [completed]
    | close ha hqueue _ _ =>
      have hnil : x.pending = [] := by
        unfold Net.pending
        rw [ha, hqueue]
        rfl
      rw [hnil] at hp
      exact absurd hp (by simp)
  · have hno : x.actor.isOpen = false := by
      rw [hdead]
      rfl
    cases hs with
    | refuse _ _ | panic _ | lose _ _ | cancel _ =>
      exact Or.inr ⟨hdead, by simpa [completed] using hpre⟩
    | tell _ _ ho _ | ask _ _ ho _ =>
      rw [hno] at ho
      cases ho
    | take ha _ | answer ha _ _ _ | serve ha _ _ | crash ha _ _ _ | close ha _ _ _ =>
      rw [hdead] at ha
      cases ha

omit [DecidableEq ι] in
theorem mem_of_asksOf [DecidableEq ι] {i : ι} {q : Q} {l : List (ι × Q)}
    (h : q ∈ asksOf S i l) : (i, q) ∈ l := by
  obtain ⟨⟨j, p⟩, hmem, rfl⟩ := List.mem_map.mp h
  obtain ⟨hmem, hj⟩ := List.mem_filter.mp hmem
  obtain ⟨hj, -⟩ := Bool.and_eq_true_iff.mp hj
  rwa [← of_decide_eq_true hj]

/-- When the actor has stopped, nothing is pending. -/
theorem pending_of_stopped {c : ι → Client Q R} {s : σ} {w : W}
    (h : Run S cap (start c s w) t x) (ha : x.actor = .stopped) : x.pending = [] := by
  have hqueue : x.actor = .stopped → x.queue = [] := by
    clear ha
    induction h with
    | refl => exact nofun
    | @tail t y z l _ hs ih =>
      intro ha
      cases hs with
      | tell _ _ ho _ | ask _ _ ho _ =>
        have hy : y.actor = .stopped := ha
        rw [hy] at ho
        cases ho
      | refuse _ _ | panic _ | lose _ _ | cancel _ => exact ih ha
      | take _ _ | answer _ _ _ _ | serve _ _ _ | crash _ _ _ _ => cases ha
      | close _ hq _ _ => exact hq
  unfold Net.pending
  rw [ha, hqueue ha]
  rfl

/-- A client that is cancelled while it waits takes the actor down: what is handled after that was
sent before its request, and when everybody is through, the actor has not stopped but crashed. -/
def AbandonedFatal (S : Service Q R σ W) : Prop :=
  ∀ (ι : Type) [DecidableEq ι] (cap : Nat) (c : ι → Client Q R) (s : σ) (w : W)
    (t : List (Label ι Q R)) (x : Net ι Q R σ W), Run S cap (start c s w) t x →
    ∀ (i : ι) (q : Q) (k : R q → Client Q R), x.clients i = .waiting q k →
    x.actor.isOpen = true → ∀ (u : List (Label ι Q R)) (y z : Net ι Q R σ W),
    Step S cap x (.cancel i) y → Run S cap y u z →
      ∃ ahead behind, x.pending = ahead ++ (i, q) :: behind ∧ completed u <+: ahead ∧
        (z.Through → z.actor = .dead)

omit [DecidableEq ι] in
/-- **An abandoned request is fatal** to a strict actor. -/
theorem Strict.abandonedFatal (hS : Strict S) : AbandonedFatal S := by
  intro ι _ cap c s w t x h i q k hi ho u y z hy hz
  have hw := waits h i
  unfold Waits at hw
  rw [hi] at hw
  obtain ⟨ht, hasks⟩ := hw
  have hmem : (i, q) ∈ x.pending := mem_of_asksOf (S := S) (by rw [hasks ho]; exact List.mem_cons_self)
  obtain ⟨ahead, behind, hp⟩ := List.append_of_mem hmem
  have hab : Abandoned ahead i q u z := by
    clear h
    induction hz with
    | refl =>
      cases hy with
      | cancel _ => exact ⟨Function.update_self _ _ _, Or.inl ⟨ahead, behind, hp, rfl⟩⟩
    | tail _ hs ih => exact ih.step hS ht hs
  rcases hab.2 with ⟨left, behind', hp', rfl⟩ | ⟨hdead, hpre⟩
  · refine ⟨_, behind, hp, List.prefix_append _ _, fun hthrough => ?_⟩
    -- the request is still pending, so the actor cannot have stopped
    cases ha : z.actor with
    | idle s | busy j p s =>
      have := hthrough.1
      rw [ha] at this
      cases this
    | stopped =>
      have := pending_of_stopped ((h.tail hy).trans hz) ha
      rw [hp'] at this
      exact absurd this (by simp)
    | dead => rfl
  · exact ⟨ahead, behind, hp, hpre, fun _ => hdead⟩

/-! ## A service that does not fail -/

/-- Where `I` holds of the requests handled so far, one more is handled, and `I` kept, or waited with
for ever, if they are as `ok` says, and somebody waits for the answer, or nobody has to. -/
def Handles (S : Service Q R σ W) (ok : List (ι × Q) → Prop) (I : List (ι × Q) → σ → W → Prop)
    (lenient : Prop) : Prop :=
  ∀ done i q heard s w, ok (done ++ [(i, q)]) → I done s w →
    (heard = true ∨ S.told q ≠ none ∨ lenient) →
      (∃ s' r w', S.process q heard s w = (some (s', r), w') ∧ I (done ++ [(i, q)]) s' w') ∨
        ∃ w', S.process q heard s w = (none, w') ∧ S.stuck w' = true

/-- The actor is there, in a state with `I`, or has stopped in one. -/
def Healthy (S : Service Q R σ W) (I : List (ι × Q) → σ → W → Prop) (t : List (Label ι Q R))
    (x : Net ι Q R σ W) : Prop :=
  match x.actor with
  | .idle s | .busy _ _ s => I (served t) s x.world
  | .stopped => (∀ i, (x.clients i).Finished) ∧ ∃ s w, I (served t) s w ∧ (S.stop s w).2 = x.world
  | .dead => False

theorem asksOf_tail {i j : ι} {q : Q} {l : List (ι × Q)} (h : asksOf S i ((j, q) :: l) = []) :
    asksOf S i l = [] := by
  by_cases hj : j = i ∧ S.told q = none
  · obtain ⟨rfl, ht⟩ := hj
    rw [asksOf_self ht] at h
    cases h
  · rwa [asksOf_other (not_and_or.mp hj)] at h

/-- A client that is gone and has nothing pending sends nothing more. -/
theorem asksOf_step {i : ι} (hgone : x.clients i = .gone) (h : asksOf S i x.pending = [])
    (hs : Step S cap x l y) : asksOf S i y.pending = [] := by
  have hsend : ∀ {j : ι} {q : Q} {c : Client Q R}, x.clients j = .ready c →
      asksOf S i (x.pending ++ [(j, q)]) = [] := by
    intro j q c hc
    have hj : j ≠ i := fun he => by
      rw [he, hgone] at hc
      cases hc
    rw [asksOf_append, h, asksOf_other (Or.inl hj)]
    rfl
  have hhand : ∀ {j : ι} {q : Q} {s : σ}, x.actor = .busy j q s → asksOf S i x.queue = [] := by
    intro j q s ha
    unfold Net.pending at h
    rw [ha] at h
    exact asksOf_tail h
  cases hs with
  | tell hc _ _ _ =>
    rw [← hsend hc]
    exact congrArg _ (List.append_assoc _ _ _).symm
  | ask hc _ _ _ =>
    rw [← hsend hc]
    exact congrArg _ (List.append_assoc _ _ _).symm
  | refuse _ _ | panic _ | lose _ _ | cancel _ => exact h
  | take ha hq =>
    rw [← h]
    simp [Net.pending, ha, hq, Actor.inHand]
  | answer ha _ _ _ | serve ha _ _ => exact hhand ha
  | crash _ _ _ _ => rfl
  | close ha _ _ _ =>
    rw [← h]
    simp [Net.pending, ha, Actor.inHand]

/-- A client that is gone was cancelled, or has panicked by itself and has nothing pending. -/
def Left (S : Service Q R σ W) (t : List (Label ι Q R)) (x : Net ι Q R σ W) : Prop :=
  ∀ i, x.clients i = .gone → .cancel i ∈ t ∨ .panic i ∈ t ∧ asksOf S i x.pending = []

theorem Left.step (h : Left S t x) (hw : ∀ i, Waits S x i) (hs : Step S cap x l y)
    (hfail : ∀ i, l ≠ .fail i) : Left S (t ++ [l]) y := by
  intro i hgone
  by_cases hx : x.clients i = .gone
  · rcases h i hx with hc | ⟨hp, hasks⟩
    · exact Or.inl (List.mem_append_left _ hc)
    · exact Or.inr ⟨List.mem_append_left _ hp, asksOf_step hx hasks hs⟩
  · have hself : ∀ {j : ι} {a : Status Q R}, (x.setClient j a).clients i = .gone → j = i := by
      intro j a hj
      by_contra hne
      exact hx ((Function.update_of_ne (Ne.symm hne) _ _).symm.trans hj)
    have hready : ∀ {j : ι} {c : Client Q R},
        (x.setClient j (.ready c)).clients i = .gone → False := by
      intro j c hj
      obtain rfl := hself hj
      cases (Function.update_self _ _ _).symm.trans hj
    cases hs with
    | tell _ _ _ _ | answer _ _ _ _ => exact (hready hgone).elim
    | @ask j q k _ _ _ _ =>
      obtain rfl := hself (j := j) hgone
      cases (Function.update_self _ _ _).symm.trans hgone
    | refuse _ _ | lose _ _ => exact absurd rfl (hfail _)
    | @panic j hc =>
      obtain rfl := hself (j := j) hgone
      have hj := hw j
      unfold Waits at hj
      rw [hc] at hj
      exact Or.inr ⟨by simp, hj⟩
    | @cancel j _ =>
      obtain rfl := hself (j := j) hgone
      exact Or.inl (by simp)
    | take _ _ | serve _ _ _ | crash _ _ _ _ | close _ _ _ _ => exact absurd hgone hx

section Healthy

variable {ok : List (ι × Q) → Prop} {I : List (ι × Q) → σ → W → Prop} {lenient : Prop}

omit [DecidableEq ι] in
theorem Healthy.congr (h : Healthy S I t x) (ha : y.actor = x.actor) (hw : y.world = x.world)
    (hl : l.handled = none) (hf : x.actor = .stopped → ∀ i, (y.clients i).Finished) :
    Healthy S I (t ++ [l]) y := by
  have hserved : served (t ++ [l]) = served t := by simp [served_snoc, hl]
  unfold Healthy at h ⊢
  rw [ha, hw, hserved]
  cases hx : x.actor with
  | idle s | busy i q s => rwa [hx] at h
  | stopped =>
    rw [hx] at h
    exact ⟨hf hx, h.2⟩
  | dead => rwa [hx] at h

omit [DecidableEq ι] in
theorem Healthy.state (h : Healthy S I t x) {s : σ} (ha : x.actor.state = some s) :
    I (served t) s x.world := by
  unfold Healthy at h
  cases hx : x.actor with
  | idle s' | busy i q s' =>
    rw [hx] at h ha
    cases ha
    exact h
  | stopped | dead =>
    rw [hx] at ha
    cases ha

omit [DecidableEq ι] in
theorem Healthy.closed (h : Healthy S I t x) (ho : x.actor.isOpen = false) :
    ∃ s w, I (served t) s w ∧ (S.stop s w).2 = x.world := by
  unfold Healthy at h
  cases ha : x.actor with
  | idle s | busy j q s => rw [ha] at ho; cases ho
  | dead => rw [ha] at h; exact h.elim
  | stopped => rw [ha] at h; exact h.2

omit [DecidableEq ι] in
theorem Healthy.finished (h : Healthy S I t x) (ho : x.actor.isOpen = false) (i : ι) :
    (x.clients i).Finished := by
  unfold Healthy at h
  cases ha : x.actor with
  | idle s | busy j q s => rw [ha] at ho; cases ho
  | dead => rw [ha] at h; exact h.elim
  | stopped => rw [ha] at h; exact h.1 i

/-- One step of a service that does not fail. -/
theorem Healthy.step (hI : Handles S ok I lenient) (h : Healthy S I t x)
    (hok : ∀ {i q s}, x.actor = .busy i q s → ok (served t ++ [(i, q)]))
    (hminds : ∀ {i q s}, x.actor = .busy i q s → ¬ x.Awaited S i q → S.told q ≠ none ∨ lenient)
    (hs : Step S cap x l y) : Healthy S I (t ++ [l]) y := by
  have hopen : ∀ {P : Prop}, x.actor.isOpen = true → x.actor = .stopped → P := fun ho ha => by
    rw [ha] at ho
    cases ho
  have hbusy : ∀ {i q s}, x.actor = .busy i q s → I (served t) s x.world := fun ha => by
    unfold Healthy at h
    rwa [ha] at h
  -- whoever leaves, the others stay finished
  have hgone : ∀ {i}, x.actor = .stopped → ∀ j, ((x.setClient i .gone).clients j).Finished := by
    intro i ha j
    by_cases hj : j = i
    · subst hj
      exact Or.inr (Function.update_self _ _ _)
    · have hf := h.finished (by rw [ha]; rfl) j
      unfold Status.Finished at hf ⊢
      rwa [show (x.setClient i .gone).clients j = x.clients j from Function.update_of_ne hj _ _]
  cases hs with
  | tell _ _ ho _ => exact h.congr rfl rfl rfl (hopen ho)
  | ask _ _ ho _ => exact h.congr rfl rfl rfl (hopen ho)
  | refuse _ _ | panic _ | lose _ _ | cancel _ => exact h.congr rfl rfl rfl hgone
  | @take i q s rest ha _ =>
    unfold Healthy at h ⊢
    rw [ha] at h
    rw [served_snoc]
    exact (List.append_nil (served t)).symm ▸ h
  | @answer i q k s s' r w ha hc ht hp =>
    obtain ⟨_, _, _, hp', hI'⟩ | ⟨_, hp', -⟩ :=
      hI _ i q true s x.world (hok ha) (hbusy ha) (Or.inl rfl) <;> cases hp.symm.trans hp'
    unfold Healthy
    rw [served_snoc]
    exact hI'
  | @serve i q s s' r w ha hno hp =>
    obtain ⟨_, _, _, hp', hI'⟩ | ⟨_, hp', -⟩ :=
      hI _ i q false s x.world (hok ha) (hbusy ha) (Or.inr (hminds ha hno)) <;>
      cases hp.symm.trans hp'
    unfold Healthy
    rw [served_snoc]
    exact hI'
  | @crash i q s heard w ha hh hp hgone =>
    have hmay : heard = true ∨ S.told q ≠ none ∨ lenient := by
      by_cases hno : x.Awaited S i q
      · exact Or.inl (hh.mpr hno)
      · exact Or.inr (hminds ha hno)
    obtain ⟨_, _, _, hp', -⟩ | ⟨_, hp', hstuck⟩ :=
      hI _ i q heard s x.world (hok ha) (hbusy ha) hmay <;> cases hp.symm.trans hp'
    cases hgone.symm.trans hstuck
  | @close s o w ha hq hall hp =>
    unfold Healthy at h ⊢
    rw [ha] at h
    rw [served_snoc]
    exact ⟨hall, s, x.world, (List.append_nil (served t)).symm ▸ h, by rw [hp]⟩

/-- **A service that does not fail is always there**: the actor does not crash, and no client fails,
as long as no client is cancelled, or the actor does not mind. -/
theorem all_served (hI : Handles S ok I lenient) {c : ι → Client Q R} {s : σ} {w : W}
    (hinit : I [] s w) (h : Run S cap (start c s w) t x) (hok : ∀ l, l <+: sent t → ok l)
    (hcancel : lenient ∨ ∀ i, .cancel i ∉ t) :
    Healthy S I t x ∧ (∀ i, .fail i ∉ t) ∧ Left S t x := by
  induction h with
  | refl => exact ⟨hinit, by simp, fun i hi => by cases hi⟩
  | @tail t y z l hrun hs ih =>
    have hsent : ∀ l, l <+: sent t → ok l := fun l hl => hok l (hl.trans (by
      rw [sent_snoc]
      exact List.prefix_append _ _))
    obtain ⟨hhealthy, hfail, hleft⟩ := ih hsent (hcancel.imp_right fun hc i hi =>
      hc i (List.mem_append_left _ hi))
    have hw := waits hrun
    -- whoever is not waited for may be handled
    have hminds : ∀ {i q s'}, y.actor = .busy i q s' → ¬ y.Awaited S i q →
        S.told q ≠ none ∨ lenient := by
      intro i q s' ha hno
      by_cases ht : S.told q = none
      · refine Or.inr (hcancel.resolve_right fun hc => ?_)
        rcases hleft i (gone_of_not_heard (hw i) ha ht hno) with hci | ⟨-, hasks⟩
        · exact hc i (List.mem_append_left _ hci)
        · unfold Net.pending at hasks
          rw [ha] at hasks
          change asksOf S i ((i, q) :: y.queue) = [] at hasks
          rw [asksOf_self ht] at hasks
          cases hasks
      · exact Or.inl ht
    have hnofail : ∀ i, l ≠ .fail i := by
      rintro i rfl
      cases hs with
      | refuse hc ho | lose hc ho =>
        have hf := hhealthy.finished ho i
        unfold Status.Finished at hf
        rw [hc] at hf
        rcases hf with hf | hf <;> cases hf
    have hhand : ∀ {i q s'}, y.actor = .busy i q s' → ok (served t ++ [(i, q)]) := fun ha =>
      hsent _ (served_next hrun ha)
    refine ⟨hhealthy.step hI hhand hminds hs, fun i hi => ?_, hleft.step hw hs hnofail⟩
    rcases List.mem_append.mp hi with hi | hi
    · exact hfail i hi
    · exact hnofail i (List.mem_singleton.mp hi).symm

end Healthy

end Channel

end Async
