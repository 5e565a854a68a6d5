import E2etest.Async.Channel

/-!
# Clients with slots of their own

A request may empty a slot, or fill it. `Turns` says of a list of requests that every slot is empty
when it is filled. Where each client keeps to its own slots and makes such a list, so is what they
send together, in whatever order (`turns_sent`): who else does what in between does not matter.
-/

namespace Async

open Channel

/-- What a request does to a slot. -/
inductive Touch (K : Type)
  | empty (k : K)
  | fill (k : K)
  deriving DecidableEq, Repr

/-- The slot. -/
def Touch.slot {K : Type} : Touch K → K
  | .empty k | .fill k => k

section Turns

variable {K Q : Type} [DecidableEq K] (touch : Q → Option (Touch K))

/-- The slots that are empty after a request. -/
def emptied (b : K → Bool) (q : Q) : K → Bool :=
  match touch q with
  | some (.empty k) => Function.update b k true
  | some (.fill k) => Function.update b k false
  | none => b

/-- Every slot is empty when it is filled. -/
def Turns : (K → Bool) → List Q → Prop
  | _, [] => True
  | b, q :: qs => (∀ k, touch q = some (.fill k) → b k = true) ∧ Turns (emptied touch b q) qs

variable {touch} {b : K → Bool} {q : Q} {ps qs : List Q} {k : K}

theorem turns_append :
    Turns touch b (ps ++ qs) ↔ Turns touch b ps ∧ Turns touch (ps.foldl (emptied touch) b) qs := by
  induction ps generalizing b with
  | nil => exact (and_iff_right trivial).symm
  | cons p ps ih =>
    change _ ∧ Turns touch _ (ps ++ qs) ↔ (_ ∧ Turns touch _ ps) ∧ _
    rw [ih, and_assoc]
    rfl

theorem turns_snoc : Turns touch b (qs ++ [q]) ↔
    Turns touch b qs ∧ ∀ k, touch q = some (.fill k) → qs.foldl (emptied touch) b k = true := by
  rw [turns_append]
  exact and_congr_right fun _ => and_iff_left trivial

theorem Turns.sublist (h : Turns touch b qs) (hp : ps <+: qs) : Turns touch b ps := by
  obtain ⟨rest, rfl⟩ := hp
  exact (turns_append.mp h).1

/-- A request for another slot leaves this one as it is. -/
theorem emptied_of_ne (h : (touch q).map Touch.slot ≠ some k) : emptied touch b q k = b k := by
  unfold emptied
  cases ht : touch q with
  | none => rfl
  | some a =>
    rw [ht] at h
    cases a with
    | empty k' | fill k' => exact Function.update_of_ne (fun he => h (by rw [he]; rfl)) _ _

/-- Whether a slot is empty is up to the requests for it. -/
theorem emptied_congr {b' : K → Bool} (h : b k = b' k) : emptied touch b q k = emptied touch b' q k := by
  unfold emptied
  cases touch q with
  | none => exact h
  | some a =>
    cases a with
    | empty k' | fill k' =>
      by_cases hk : k = k'
      · subst hk
        simp
      · simp [Function.update_of_ne hk, h]

end Turns

section Rounds

variable {K Q C : Type} [DecidableEq K] {touch : Q → Option (Touch K)} {down up : C → Q} {ready : Q}
  {key : C → K} {b : K → Bool} {ps : List Q} {k : K}

/-- For each of these a slot is emptied and filled again, and then something else is asked. -/
def rounds (down up : C → Q) (ready : Q) (cs : List C) : List Q :=
  cs.flatMap fun c => [down c, up c, ready]

variable (hdown : ∀ c, touch (down c) = some (.empty (key c)))
  (hup : ∀ c, touch (up c) = some (.fill (key c))) (hready : touch ready = none)

include hdown hup hready

theorem turns_rounds (cs : List C) : Turns touch b (rounds down up ready cs) := by
  induction cs generalizing b with
  | nil => trivial
  | cons c cs ih =>
    refine ⟨?_, ?_, ?_, ih⟩
    · intro k hk
      rw [hdown] at hk
      cases hk
    · intro k hk
      rw [hup] at hk
      cases hk
      unfold emptied
      rw [hdown]
      exact Function.update_self _ _ _
    · intro k hk
      rw [hready] at hk
      cases hk

/-- **A slot is empty in the middle of a round** for it, and at no other time. -/
theorem foldl_emptied_rounds (cs : List C) (h : ps <+: rounds down up ready cs) :
    ps.foldl (emptied touch) (fun _ => false) k = true ↔
      ∃ c, key c = k ∧ ps.getLast? = some (down c) := by
  induction cs generalizing ps with
  | nil =>
    rw [List.prefix_nil.mp h]
    simp
  | cons c cs ih =>
    have hd : ∀ b, emptied touch b (down c) = Function.update b (key c) true := fun b => by
      unfold emptied
      rw [hdown]
    have hu : ∀ b, emptied touch b (up c) = Function.update b (key c) false := fun b => by
      unfold emptied
      rw [hup]
    have hr : ∀ b, emptied touch b ready = b := fun b => by
      unfold emptied
      rw [hready]
    have hfull : Function.update (Function.update (fun _ => false) (key c) true) (key c) false =
        fun _ => false := by
      rw [Function.update_idem]
      exact Function.update_eq_self _ _
    -- `down` empties its own slot, and neither of the others is a `down`
    have hkey : ∀ c', down c = down c' → key c = key c' := fun c' he => by
      have := hdown c
      rw [he, hdown] at this
      exact (Touch.empty.inj (Option.some.inj this)).symm
    have hne : ∀ c', up c ≠ down c' := fun c' he => by
      have := hup c
      rw [he, hdown] at this
      cases this
    have hne' : ∀ c', ready ≠ down c' := fun c' he => by
      have := hready
      rw [he, hdown] at this
      cases this
    rcases List.prefix_cons_iff.mp h with rfl | ⟨qs, rfl, h₁⟩
    · simp
    rcases List.prefix_cons_iff.mp h₁ with rfl | ⟨qs, rfl, h₂⟩
    · rw [List.foldl_cons, hd]
      constructor
      · intro hk
        by_cases hck : k = key c
        · exact ⟨c, hck.symm, rfl⟩
        · rw [List.foldl_nil, Function.update_of_ne hck] at hk
          cases hk
      · rintro ⟨c', rfl, hlast⟩
        rw [← hkey c' (Option.some.inj hlast)]
        exact Function.update_self _ _ _
    rcases List.prefix_cons_iff.mp h₂ with rfl | ⟨qs, rfl, h₃⟩
    · rw [List.foldl_cons, List.foldl_cons, hd, hu, hfull]
      refine iff_of_false Bool.false_ne_true ?_
      rintro ⟨c', -, hlast⟩
      exact hne c' (Option.some.inj hlast)
    · rw [List.foldl_cons, List.foldl_cons, List.foldl_cons, hd, hu, hr, hfull, ih h₃]
      refine exists_congr fun c' => and_congr_right fun _ => ?_
      rw [List.getLast?_cons_cons, List.getLast?_cons_cons]
      cases qs with
      | nil =>
        refine iff_of_false (by simp) fun hlast => ?_
        exact hne' c' (Option.some.inj hlast)
      | cons q qs => rw [List.getLast?_cons_cons]

end Rounds

section Programs

variable {C Q : Type} {R : Q → Type} {down up : C → Q} {ready : Q} {test : R ready → Bool}

/-- A round, which has to end well, and then the rest of the client. -/
def round (down up ready : Q) (test : R ready → Bool) (rest : Client Q R) : Client Q R :=
  .call down fun _ => .call up fun _ => .call ready fun r => if test r then rest else .panic

/-- A client that makes rounds, one after the other. -/
def roundsOf (down up : C → Q) (ready : Q) (test : R ready → Bool) : List C → Client Q R
  | [] => .done
  | c :: cs => round (down c) (up c) ready test (roundsOf down up ready test cs)

theorem makes_roundsOf (cs : List C) :
    Makes (roundsOf down up ready test cs) (rounds down up ready cs) := by
  induction cs with
  | nil => exact .done
  | cons c cs ih =>
    refine .call fun _ => .call fun _ => .call fun r => ?_
    split
    · exact ih
    · exact .panic

/-- Where every round ends well, the client does not panic. -/
theorem not_panic {cs : List C} {v : List (Σ q, R q)} {d : Client Q R}
    (h : Does (roundsOf down up ready test cs) v d)
    (hv : ∀ r : R ready, ⟨ready, r⟩ ∈ v → test r = true) : d ≠ .panic := by
  -- what is left are some rounds, or one that is under way and some more
  have hleft : (∃ cs, d = roundsOf down up ready test cs) ∨
      (∃ c cs, d = .call (up c) fun _ => .call ready fun r =>
        if test r then roundsOf down up ready test cs else .panic) ∨
      ∃ cs, d = .call ready fun r =>
        if test r then roundsOf down up ready test cs else .panic := by
    induction h with
    | refl => exact Or.inl ⟨_, rfl⟩
    | @call v q k hd r ih =>
      rcases ih fun r hm => hv r (List.mem_append_left _ hm) with
        ⟨cs, hcs⟩ | ⟨c, cs, hcs⟩ | ⟨cs, hcs⟩
      · cases cs with
        | nil => cases hcs
        | cons c cs =>
          cases hcs
          exact Or.inr (Or.inl ⟨c, cs, rfl⟩)
      · cases hcs
        exact Or.inr (Or.inr ⟨cs, rfl⟩)
      · cases hcs
        exact Or.inl ⟨cs, if_pos (hv r (by simp))⟩
  rcases hleft with ⟨cs, rfl⟩ | ⟨c, cs, rfl⟩ | ⟨cs, rfl⟩
  · cases cs <;> exact nofun
  · exact nofun
  · exact nofun

end Programs

section Clients

variable {ι K Q : Type} [DecidableEq ι] [DecidableEq K] {touch : Q → Option (Touch K)}
  {owner : K → ι} {b : K → Bool} {l : List (ι × Q)}

/-- Every slot is touched by the client that owns it only. -/
def KeepsTo (touch : Q → Option (Touch K)) (owner : K → ι) (i : ι) (qs : List Q) : Prop :=
  ∀ q ∈ qs, ∀ k, (touch q).map Touch.slot = some k → owner k = i

/-- Of the requests of all clients, those of its owner say whether a slot is empty. -/
theorem foldl_emptied (h : ∀ i, KeepsTo touch owner i (requestsOf i l)) (k : K) :
    (l.map Prod.snd).foldl (emptied touch) b k =
      (requestsOf (owner k) l).foldl (emptied touch) b k := by
  induction l using List.reverseRecOn with
  | nil => rfl
  | append_singleton l m ih =>
    obtain ⟨i, q⟩ := m
    have hl : ∀ i, KeepsTo touch owner i (requestsOf i l) := fun j q hq => h j q (by
      rw [requestsOf_snoc]
      exact List.mem_append_left _ hq)
    rw [List.map_append, List.foldl_append, requestsOf_snoc]
    by_cases hi : i = owner k
    · subst hi
      rw [if_pos rfl, List.foldl_append]
      exact emptied_congr (ih hl)
    · have hq : (touch q).map Touch.slot ≠ some k := fun ht =>
        hi (h i q (by rw [requestsOf_snoc, if_pos rfl]; simp) k ht).symm
      rw [if_neg hi, List.append_nil, ← ih hl]
      exact emptied_of_ne hq

/-- Clients that fill only what they have emptied do so together. -/
theorem turns_map_snd (hk : ∀ i, KeepsTo touch owner i (requestsOf i l))
    (h : ∀ i, Turns touch b (requestsOf i l)) : Turns touch b (l.map Prod.snd) := by
  induction l using List.reverseRecOn with
  | nil => trivial
  | append_singleton l m ih =>
    obtain ⟨i, q⟩ := m
    have hkl : ∀ i, KeepsTo touch owner i (requestsOf i l) := fun j q hq => hk j q (by
      rw [requestsOf_snoc]
      exact List.mem_append_left _ hq)
    have hl : ∀ i, Turns touch b (requestsOf i l) := fun j => (h j).sublist (by
      rw [requestsOf_snoc]
      exact List.prefix_append _ _)
    rw [List.map_append, List.map_singleton, turns_snoc]
    refine ⟨ih hkl hl, fun k ht => ?_⟩
    have hi := h i
    rw [requestsOf_snoc, if_pos rfl, turns_snoc] at hi
    obtain rfl := hk i q (by rw [requestsOf_snoc, if_pos rfl]; simp) k (by rw [ht]; rfl)
    rw [foldl_emptied hkl]
    exact hi.2 k ht

section Runs

variable {R : Q → Type} {σ W : Type} {S : Service Q R σ W} {cap : Nat} {x : Net ι Q R σ W}
  {t : List (Label ι Q R)} {s : σ} {w : W} {c : ι → Client Q R} {ms : ι → List Q}

/-- **What the clients send together** fills no slot that is not empty, if what each of them makes
does not, and each keeps to its own slots. -/
theorem turns_sent (hm : ∀ i, Makes (c i) (ms i)) (hk : ∀ i, KeepsTo touch owner i (ms i))
    (ht : ∀ i, Turns touch b (ms i)) (h : Run S cap (start c s w) t x) :
    Turns touch b ((sent t).map Prod.snd) := by
  have hpre : ∀ i, requestsOf i (sent t) <+: ms i := fun i => (hm i).sends ((sequential h).client i)
  exact turns_map_snd (fun i q hq => hk i q ((hpre i).subset hq)) fun i => (ht i).sublist (hpre i)

variable {C : Type} {down up : C → Q} {ready : Q} {key : C → K} {cs : ι → List C}

/-- Clients that make rounds, each for slots of its own. -/
structure Rounds (touch : Q → Option (Touch K)) (owner : K → ι) (down up : C → Q) (ready : Q)
    (key : C → K) (cs : ι → List C) (c : ι → Client Q R) : Prop where
  empties : ∀ c, touch (down c) = some (.empty (key c))
  fills : ∀ c, touch (up c) = some (.fill (key c))
  asks : touch ready = none
  own : ∀ i, ∀ c ∈ cs i, owner (key c) = i
  makes : ∀ i, Makes (c i) (rounds down up ready (cs i))

variable (hr : Rounds touch owner down up ready key cs c)

include hr

omit [DecidableEq ι] [DecidableEq K] in
theorem Rounds.keepsTo (i : ι) : KeepsTo touch owner i (rounds down up ready (cs i)) := by
  intro q hq k hk
  obtain ⟨c, hc, hq⟩ := List.mem_flatMap.mp hq
  simp only [List.mem_cons, List.not_mem_nil, or_false] at hq
  rcases hq with rfl | rfl | rfl
  · rw [hr.empties] at hk
    exact Option.some.inj hk ▸ hr.own i c hc
  · rw [hr.fills] at hk
    exact Option.some.inj hk ▸ hr.own i c hc
  · rw [hr.asks] at hk
    cases hk

/-- **Every slot is empty when it is filled**, in whatever order the rounds of the clients mix. -/
theorem Rounds.turns (h : Run S cap (start c s w) t x) {l : List (ι × Q)} (hl : l <+: sent t) :
    Turns touch b (l.map Prod.snd) :=
  (turns_sent hr.makes hr.keepsTo (fun i => turns_rounds hr.empties hr.fills hr.asks (cs i))
    h).sublist (hl.map _)

omit [DecidableEq K] in
theorem Rounds.mem_sent (h : Run S cap (start c s w) t x) {m : ι × Q} (hm : m ∈ sent t) :
    (∃ c, m.2 = down c) ∨ (∃ c, m.2 = up c) ∨ m.2 = ready := by
  obtain ⟨i, q⟩ := m
  have hq : q ∈ requestsOf i (sent t) :=
    List.mem_map.mpr ⟨(i, q), List.mem_filter.mpr ⟨hm, decide_eq_true rfl⟩, rfl⟩
  obtain ⟨c, -, hq⟩ := List.mem_flatMap.mp
    (((hr.makes i).sends ((sequential h).client i)).subset hq)
  simp only [List.mem_cons, List.not_mem_nil, or_false] at hq
  exact hq.imp (fun he => ⟨c, he⟩) (Or.imp_left fun he => ⟨c, he⟩)

/-- **A slot is empty while its client is in the middle of a round** for it. -/
theorem Rounds.empty_iff (h : Run S cap (start c s w) t x) (k : K) :
    ((served t).map Prod.snd).foldl (emptied touch) (fun _ => false) k = true ↔
      ∃ c, key c = k ∧ (requestsOf (owner k) (served t)).getLast? = some (down c) := by
  have hpre : ∀ i, requestsOf i (served t) <+: rounds down up ready (cs i) := fun i =>
    (sequential h).served_sends (hr.makes i)
  rw [foldl_emptied (fun i q hq => hr.keepsTo i q ((hpre i).subset hq))]
  exact foldl_emptied_rounds hr.empties hr.fills hr.asks _ (hpre _)

/-- A client that asks in the end has filled its slots. -/
theorem Rounds.full (h : Run S cap (start c s w) t x) {i : ι} {s' : σ}
    (ha : x.actor = .busy i ready s') {k : K} (hk : owner k = i) :
    ((served t).map Prod.snd).foldl (emptied touch) (fun _ => false) k = false := by
  obtain ⟨⟨rest, hsent, hrest⟩, -, -, hclient⟩ := sequential h
  have hpre : ∀ j, requestsOf j (sent t) <+: rounds down up ready (cs j) := fun j =>
    (hr.makes j).sends (hclient j)
  have hpre' : requestsOf i (served t) ++ [ready] <+: rounds down up ready (cs i) := by
    refine List.IsPrefix.trans ?_ (hpre i)
    rw [hsent, hrest (by simp [ha]), Net.pending, ha, requestsOf_append]
    exact (List.prefix_append_right_inj _).mpr (by simp [requestsOf, Actor.inHand])
  have hserved : ∀ j, requestsOf j (served t) <+: rounds down up ready (cs j) := fun j =>
    (sequential h).served_sends (hr.makes j)
  rw [← Bool.not_eq_true, foldl_emptied fun j q hq => hr.keepsTo j q ((hserved j).subset hq), hk]
  intro hempty
  -- nothing is emptied or filled by asking
  have hlast : ((requestsOf i (served t)) ++ [ready]).foldl (emptied touch) (fun _ => false) k =
      true := by
    rw [List.foldl_append]
    refine (emptied_of_ne ?_).trans hempty
    simp [hr.asks]
  obtain ⟨c, -, hc⟩ := (foldl_emptied_rounds hr.empties hr.fills hr.asks _ hpre').mp hlast
  rw [List.getLast?_concat] at hc
  have := hr.asks
  rw [Option.some.inj hc, hr.empties] at this
  cases this

end Runs

end Clients

end Async
