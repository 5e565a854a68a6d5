import E2etest.Asserts
import E2etest.Macros

/-!
# Tests in flight

A test is in flight from its `SetupLaunched` to the end of its teardown (`inFlight`).

* `parallel_of_inFlight`: tests in flight together are tests of one group, and no fixture on the way
  to them forbids it.
* `flying_le`: at no point are more tests in flight than the configured number.
* `tests_exclusive`: both, for a tree as it is declared.
-/

namespace E2etest

open Async Text Prog

theorem prefix_append_cases {A : Type*} {s a b : List A} (h : s <+: a ++ b) :
    s <+: a ∨ ∃ s', s = a ++ s' ∧ s' <+: b := by
  obtain ⟨r, hr⟩ := h
  obtain ⟨d, rfl, -⟩ | ⟨d, rfl, rfl⟩ := List.append_eq_append_iff.mp hr
  · exact Or.inl (List.prefix_append _ _)
  · exact Or.inr ⟨d, rfl, List.prefix_append _ _⟩

theorem proj_mono {n : NodeId} {s w : List OpCall} (h : s <+: w) : proj n s <+: proj n w :=
  h.filter _

theorem eventsOf_congr {n : NodeId} {v w : List OpCall} (h : proj n v = proj n w) :
    eventsOf n v = eventsOf n w := by
  rw [eventsOf_eq, h, eventsOf_eq]

/-- The test is between its `SetupLaunched` and the end of its teardown. -/
def inFlight (s : List OpCall) (n : Node) : Bool :=
  decide (.setupLaunched ∈ eventsOf n.id s ∧ .teardownPassed ∉ eventsOf n.id s ∧
    .teardownFailed ∉ eventsOf n.id s)

theorem inFlight_congr {n : Node} {v w : List OpCall} (h : proj n.id v = proj n.id w) :
    inFlight v n = inFlight w n := by
  unfold inFlight
  rw [eventsOf_congr h]

theorem inFlight_of_nil {n : Node} {s : List OpCall} (h : proj n.id s = []) :
    inFlight s n = false := by
  simp [inFlight, eventsOf_eq, h, entries]

/-- A node that has done all it does is not in flight. -/
theorem inFlight_of_span {n : Node} {dt : Duration} {s : List OpCall}
    (h : IsSpan n dt (proj n.id s)) : inFlight s n = false := by
  obtain ⟨r, body, down, he⟩ := h.eventsOf
  unfold inFlight
  rw [he, decide_eq_false_iff_not]
  rintro ⟨-, hp, hf⟩
  cases down with
  | ok u => exact hp (by simp [nodeEvents, teardownEvent])
  | error e => exact hf (by simp [nodeEvents, teardownEvent])

/-! ## Two tests in flight -/

/-- When one node is done before the other one begins, a prefix that has the other one's operations
has all of the first. -/
theorem proj_of_before {n m : NodeId} {s w : List OpCall} (hne : n ≠ m)
    (hw : proj₂ n m w = proj n w ++ proj m w) (hs : s <+: w) :
    proj m s = [] ∨ proj n s = proj n w := by
  have hpre : proj₂ n m s <+: proj n w ++ proj m w := hw ▸ hs.filter _
  rcases prefix_append_cases hpre with h | ⟨s', h, -⟩
  · refine Or.inl ?_
    rw [← proj_proj₂ m n s, proj₂_comm]
    refine proj_eq_nil fun c hc he => hne ?_
    exact (mem_proj.mp (h.subset hc)).2.symm.trans he
  · refine Or.inr ((proj_mono hs).eq_of_length_le ?_)
    have hn : proj n s = proj n (proj n w ++ s') := by rw [← h, proj_proj₂]
    have hself : proj n (proj n w) = proj n w :=
      Owned.proj_self fun c hc => (mem_proj.mp hc).2
    rw [hn, proj_append, hself, List.length_append]
    exact Nat.le_add_right _ _

/-! ## How many tests are in flight -/

/-- The number of tests in flight. -/
def flying (nodes : List Node) (s : List OpCall) : Nat :=
  nodes.countP fun n => n.id.isTest && inFlight s n

theorem flying_append (nodes nodes' : List Node) (s : List OpCall) :
    flying (nodes ++ nodes') s = flying nodes s + flying nodes' s := List.countP_append

theorem flying_eq_zero {nodes : List Node} {s : List OpCall}
    (h : ∀ n ∈ nodes, inFlight s n = false) : flying nodes s = 0 := by
  unfold flying
  rw [List.countP_eq_zero]
  intro n hn
  simp [h n hn]

theorem flying_mono {nodes : List Node} {s s' : List OpCall}
    (h : ∀ n ∈ nodes, inFlight s n = true → inFlight s' n = true) :
    flying nodes s ≤ flying nodes s' := by
  refine List.countP_mono_left fun n hn hf => ?_
  rw [Bool.and_eq_true] at hf ⊢
  exact ⟨hf.1, h n hn hf.2⟩

theorem flying_congr {nodes : List Node} {s s' : List OpCall}
    (h : ∀ n ∈ nodes, proj n.id s = proj n.id s') : flying nodes s = flying nodes s' :=
  List.countP_congr fun n hn => by rw [inFlight_congr (h n hn)]

/-- Tests that have done all or nothing of what they do. -/
theorem inFlight_of_complete {n : Node} {d : Duration} {s : List OpCall}
    (h : proj n.id s = [] ∨ IsSpan n d (proj n.id s)) : inFlight s n = false :=
  h.elim inFlight_of_nil inFlight_of_span

/-- A prefix of a span, as what is inside sees it. -/
theorem prefix_span {p : NodeId} {name : Str} {kind : Task} {f : Fixture} {dt : Duration}
    {r : Except Unit (Option Arc)} {mid s : List OpCall} {down : Except Unit Unit}
    (h : s <+: spanWord p name kind f dt r mid down) :
    ∃ s', s' <+: mid ∧ ∀ k, k ≠ p → proj k s = proj k s' := by
  have hout : ∀ {v k}, Owned p v → k ≠ p → proj k v = [] := fun ho hk =>
    proj_eq_nil fun c hc he => hk (he.symm.trans (ho c hc))
  have hopen := owned_openWord p name kind f dt r
  rcases prefix_append_cases h with h | ⟨s₁, rfl, h₁⟩
  · refine ⟨[], List.nil_prefix, fun k hk => ?_⟩
    rw [hout (fun c hc => hopen c (h.subset hc)) hk, proj_nil]
  rcases prefix_append_cases h₁ with h₁ | ⟨s₂, rfl, h₂⟩
  · refine ⟨s₁, h₁, fun k hk => ?_⟩
    rw [proj_append, hout hopen hk, List.nil_append]
  · refine ⟨mid, List.prefix_rfl, fun k hk => ?_⟩
    have hclose : Owned p s₂ := fun c hc => owned_closeWord _ _ _ _ _ _ c (h₂.subset hc)
    rw [proj_append, proj_append, hout hopen hk, hout hclose hk, List.append_nil, List.nil_append]

section Phase

variable {pos : List Nat} {parentNames : List Str} {ctx : RunContext} {b : Bool} {ts : List Test}

/-- A test of the group, as a node. -/
abbrev testNode (pos : List Nat) (parents : List Str) (x : Test × Nat) : Node :=
  ⟨.test pos x.2, parents, x.1.name, x.1.fixture⟩

theorem inFlight_perm {n : Node} {v w : List OpCall} (h : (proj n.id v).Perm (proj n.id w)) :
    inFlight v n = inFlight w n := by
  have hmem : ∀ e, e ∈ eventsOf n.id v ↔ e ∈ eventsOf n.id w := fun e => by
    rw [eventsOf_eq, eventsOf_eq]
    exact ((h.filterMap entryOf).map EventEntry.event).mem_iff
  simp only [inFlight, hmem]

/-- A test in flight has been started and not been read to its end. -/
theorem underway_of_inFlight {x : Test × Nat} {q : Interleave.Progress OpCall}
    (hne : parentNames ≠ [])
    (h : Completes (runTest (.test pos x.2) (join parentNames) ctx x.1) (q.1 ++ q.2) ())
    (hf : inFlight q.1 (testNode pos parentNames x) = true) : Interleave.underway q = true := by
  obtain ⟨q₁, q₂⟩ := q
  cases q₁ with
  | nil => cases (inFlight_of_nil (n := testNode pos parentNames x) rfl).symm.trans hf
  | cons c q₁ =>
    cases q₂ with
    | nil =>
      rw [List.append_nil] at h
      have hspan := isSpan_runTest hne h
      rw [← (runTest_owned h).proj_self] at hspan
      cases (inFlight_of_span hspan).symm.trans hf
    | cons d q₂ => rfl

/-- The tests of a phase in flight, of which each word has been read up to some point. -/
theorem countP_inFlight_le (hne : parentNames ≠ []) {s : List OpCall} :
    ∀ {xs : List (Test × Nat)} {qs : List (Interleave.Progress OpCall)} {v : List OpCall},
      List.Forall₂ (fun x q => Completes (runTest (.test pos x.2) (join parentNames) ctx x.1)
        (q.1 ++ q.2) ()) xs qs →
      (xs.map Prod.snd).Nodup → (∀ x ∈ xs, ∀ c ∈ v, c.1.node ≠ .test pos x.2) →
      s.Perm (v ++ (qs.map Prod.fst).flatten) →
      xs.countP (fun x => inFlight s (testNode pos parentNames x)) ≤
        qs.countP Interleave.underway
  | [], _, _, h, _, _, _ => by
    obtain rfl := List.forall₂_nil_left_iff.mp h
    exact le_rfl
  | x :: xs, _, v, h, hnodup, hv, hs => by
    obtain ⟨q, qs, hq, hqs, rfl⟩ := List.forall₂_cons_left_iff.mp h
    rw [List.map_cons, List.nodup_cons] at hnodup
    have hown : Owned (.test pos x.2) q.1 := fun c hc =>
      runTest_owned hq c (List.mem_append_left _ hc)
    have hrest : proj (.test pos x.2) (qs.map Prod.fst).flatten = [] := by
      refine proj_eq_nil fun c hc he => hnodup.1 ?_
      obtain ⟨l, hl, hcl⟩ := List.mem_flatten.mp hc
      obtain ⟨p, hp, rfl⟩ := List.mem_map.mp hl
      obtain ⟨y, hy, hyw⟩ := forall₂_mem_right hqs p hp
      have hyc := runTest_owned hyw c (List.mem_append_left _ hcl)
      exact List.mem_map.mpr ⟨y, hy, (NodeId.test.inj (hyc.symm.trans he)).2⟩
    have hperm : (proj (.test pos x.2) s).Perm (proj (.test pos x.2) q.1) := by
      have := hs.filter fun c => c.1.node = .test pos x.2
      change (proj _ s).Perm (proj _ (v ++ (q.1 :: qs.map Prod.fst).flatten)) at this
      rwa [proj_append, List.flatten_cons, proj_append, hrest,
        proj_eq_nil (hv x List.mem_cons_self), List.append_nil, List.nil_append] at this
    have hih := countP_inFlight_le hne (s := s) (v := v ++ q.1) hqs hnodup.2
      (fun y hy c hc he => by
        rcases List.mem_append.mp hc with hc | hc
        · exact hv y (List.mem_cons_of_mem _ hy) c hc he
        · refine hnodup.1 (List.mem_map.mpr ⟨y, hy, ?_⟩)
          exact (NodeId.test.inj (he.symm.trans (hown c hc))).2)
      (by simpa using hs)
    rw [List.countP_cons, List.countP_cons]
    refine Nat.add_le_add hih ?_
    split
    · rename_i hf
      rw [inFlight_perm (n := testNode pos parentNames x) hperm] at hf
      rw [if_pos (underway_of_inFlight hne hq hf)]
    · exact Nat.zero_le _

/-- **A phase** has no more tests in flight than it may have words under way. -/
theorem flying_phase (hne : parentNames ≠ []) {ls : List (List OpCall)} {n : Nat}
    {w s : List OpCall} (hn : n ≠ 0) (h : TestWords pos parentNames ctx b ts ls)
    (hi : Interleave n [] ls w) (hs : s <+: w) :
    flying (Group.testNodes pos parentNames ts) s ≤ n := by
  obtain ⟨s', hs'⟩ := hs
  obtain ⟨qs, hqs, hperm, hle⟩ := hi.snapshot hn hs'.symm
  have hwords : List.Forall₂ (fun x q => Completes (runTest (.test pos x.2) (join parentNames) ctx x.1)
      (q.1 ++ q.2) ()) (phase parentNames ctx b ts) qs := by
    rw [← hqs] at h
    exact List.forall₂_map_right_iff.mp h
  have hcount := countP_inFlight_le (v := []) hne hwords
    (phase_nodup parentNames ctx b ts) (by simp) hperm
  refine le_trans ?_ (hcount.trans hle)
  unfold flying Group.testNodes
  rw [List.countP_map, phase, List.filter_filter, List.countP_filter]
  refine List.countP_mono_left fun x hx hf => ?_
  have hin : inFlight s (testNode pos parentNames x) = true := by
    simpa [NodeId.isTest] using hf
  have hphase : x ∈ phase parentNames ctx b ts := by
    by_contra hout
    have htx : ts[x.2]? = some x.1 := List.mem_zipIdx_iff_getElem?.mp hx
    have hnil : proj (.test pos x.2) s = [] := proj_eq_nil fun c hc =>
      not_in_phase h hi htx hout c (hs' ▸ List.mem_append_left _ hc)
    cases (inFlight_of_nil (n := testNode pos parentNames x) hnil).symm.trans hin
  unfold phase at hphase
  rw [List.filter_filter, List.mem_filter] at hphase
  rw [Bool.and_eq_true]
  exact ⟨hin, hphase.2⟩

end Phase

section Inside

variable {pos : List Nat} {parentNames : List Str} {ctx : RunContext} {ts : List Test}
  {gs : List Group} {w s : List OpCall}

/-- The two phases, one after the other. -/
theorem flying_phases (hne : parentNames ≠ []) (hc : 0 < ctx.concurrency)
    {ls₂ ls₃ : List (List OpCall)} {t₂ : List OpCall}
    (h₂ : TestWords pos parentNames ctx true ts ls₂) (hi : Interleave ctx.concurrency [] ls₂ t₂)
    (h₃ : TestWords pos parentNames ctx false ts ls₃) (hs : s <+: t₂ ++ ls₃.flatten) :
    flying (Group.testNodes pos parentNames ts) s ≤ ctx.concurrency := by
  rcases prefix_append_cases hs with hs | ⟨s', rfl, hs'⟩
  · exact flying_phase hne (by omega) h₂ hi hs
  · -- a test of the first phase is done, and one of the second phase was not in the first
    refine (flying_mono fun m hm hf => ?_).trans
      ((flying_phase hne one_ne_zero h₃ (.flatten ls₃) hs').trans hc)
    obtain ⟨t, i, ht, rfl⟩ := Group.mem_testNodes.mp hm
    by_cases hin : (t, i) ∈ phase parentNames ctx true ts
    · have hout : (t, i) ∉ phase parentNames ctx false ts := fun hf => by
        have := (mem_phase.mp hin).2.2.symm.trans (mem_phase.mp hf).2.2
        cases this
      have hnil : proj (.test pos i) s' = [] := proj_eq_nil fun c hc =>
        not_in_phase (n := 0) h₃ (.flatten ls₃) ht hout c (hs'.subset hc)
      have hdone := isSpan_runTest hne (proj_phase h₂ hi hin)
      rw [← List.append_nil (proj _ t₂), ← hnil, ← proj_append] at hdone
      cases (inFlight_of_span hdone).symm.trans hf
    · have hnil : proj (.test pos i) t₂ = [] := proj_eq_nil (not_in_phase h₂ hi ht hin)
      rwa [inFlight_congr (w := s') (by rw [proj_append, hnil, List.nil_append])] at hf

/-- The loops of a group, given the one over the subgroups. -/
theorem flying_inside (hne : parentNames ≠ []) (hc : 0 < ctx.concurrency)
    (h : Completes (groupInside pos parentNames ctx ts gs) w ())
    (hgs : ∀ {v}, Completes (runGroups pos 0 parentNames ctx gs) v () → ∀ s, s <+: v →
      flying (Group.nodesOf pos 0 parentNames gs) s ≤ ctx.concurrency) (hs : s <+: w) :
    flying (Group.nodesOf pos 0 parentNames gs ++ Group.testNodes pos parentNames ts) s ≤
      ctx.concurrency := by
  obtain ⟨t₁, t₂, t₃, ls₂, ls₃, rfl, h₁, h₂, hi, h₃, rfl⟩ := completes_groupInside h
  rw [flying_append]
  rcases prefix_append_cases hs with hs | ⟨s', rfl, hs'⟩
  · have htests : flying (Group.testNodes pos parentNames ts) s = 0 := by
      refine flying_eq_zero fun m hm => ?_
      obtain ⟨t, i, -, rfl⟩ := Group.mem_testNodes.mp hm
      exact inFlight_of_nil (proj_eq_nil fun c hc => not_test_groups h₁ i c (hs.subset hc))
    rw [htests, Nat.add_zero]
    exact hgs h₁ s hs
  · have hgroups : flying (Group.nodesOf pos 0 parentNames gs) (t₁ ++ s') = 0 := by
      refine flying_eq_zero fun m hm => ?_
      have hnil : proj m.id s' = [] := by
        refine proj_eq_nil fun c hc => ?_
        rcases List.mem_append.mp (hs'.subset hc) with hc | hc
        · exact not_below_phase h₂ hi hm c hc
        · exact not_below_phase (n := 0) h₃ (.flatten ls₃) hm c hc
      refine inFlight_of_complete (d := ctx.defaultTimeout) ?_
      rw [proj_append, hnil, List.append_nil]
      exact proj_runGroups pos 0 _ _ gs h₁ m hm
    rw [hgroups, Nat.zero_add, flying_congr fun m hm => ?_]
    · exact flying_phases hne hc h₂ hi h₃ hs'
    · obtain ⟨t, i, -, rfl⟩ := Group.mem_testNodes.mp hm
      rw [proj_append, proj_eq_nil (not_test_groups h₁ i), List.nil_append]

end Inside

mutual

/-- **At no point are more tests in flight than the concurrency of the context.** -/
theorem flying_runGroup (pos : List Nat) (parentNames : List Str) (ctx : RunContext)
    (hc : 0 < ctx.concurrency) :
    ∀ (g : Group) {w : List OpCall}, Completes (runGroup pos parentNames ctx g) w () →
      ∀ s, s <+: w → flying (g.nodes pos parentNames) s ≤ ctx.concurrency
  | .mk name f ts gs, w, h => by
    intro s hs
    obtain ⟨r, mid, down, rfl, hmid⟩ := completes_runGroup.mp h
    obtain ⟨s', hs', hproj⟩ := prefix_span hs
    have hself : flying ((Group.mk name f ts gs).nodes pos parentNames) s =
        flying (Group.nodesOf pos 0 (parentNames ++ [name]) gs ++
          Group.testNodes pos (parentNames ++ [name]) ts) s' := by
      rw [← flying_congr fun m hm => hproj m.id (Group.ne_group_of_below hm)]
      exact List.countP_cons_of_neg (by simp [NodeId.isTest])
    rw [hself]
    obtain ⟨a, -, hmid⟩ | ⟨-, rfl⟩ := hmid
    · have hc' : 0 < (ctx.updateConcurrencyEnabled f.testCanRunConcurrently).concurrency := hc
      have := flying_inside (by simp) hc' hmid (flying_runGroups pos 0 _ _ hc' gs) hs'
      exact this
    · obtain rfl := List.prefix_nil.mp hs'
      rw [flying_eq_zero fun _ _ => inFlight_of_nil rfl]
      exact Nat.zero_le _

theorem flying_runGroups (pos : List Nat) (j : Nat) (parentNames : List Str) (ctx : RunContext)
    (hc : 0 < ctx.concurrency) :
    ∀ (gs : List Group) {w : List OpCall}, Completes (runGroups pos j parentNames ctx gs) w () →
      ∀ s, s <+: w → flying (Group.nodesOf pos j parentNames gs) s ≤ ctx.concurrency
  | [], w, _ => fun _ _ => Nat.zero_le _
  | g :: gs, w, h => by
    intro s hs
    obtain ⟨t₁, t₂, rfl, h₁, h₂⟩ := completes_runGroups_cons.mp h
    unfold Group.nodesOf
    rw [flying_append]
    rcases prefix_append_cases hs with hs | ⟨s', rfl, hs'⟩
    · have hrest : flying (Group.nodesOf pos (j + 1) parentNames gs) s = 0 :=
        flying_eq_zero fun m hm => inFlight_of_nil <|
          proj_eq_nil fun c hc => not_in_head h₁ hm c (hs.subset hc)
      rw [hrest, Nat.add_zero]
      split at h₁
      · exact flying_runGroup (pos ++ [j]) _ _ hc g h₁ s hs
      · rw [h₁, List.prefix_nil] at hs
        rw [hs, flying_eq_zero fun _ _ => inFlight_of_nil rfl]
        exact Nat.zero_le _
    · have hhead : flying (g.nodes (pos ++ [j]) parentNames) (t₁ ++ s') = 0 := by
        refine flying_eq_zero fun m hm => inFlight_of_complete (d := ctx.defaultTimeout) ?_
        have hnil : proj m.id s' = [] := proj_eq_nil fun c hc =>
          not_in_rest h₂ hm c (hs'.subset hc)
        rw [proj_append, hnil, List.append_nil]
        split at h₁
        · exact proj_runGroup (pos ++ [j]) _ _ g h₁ m hm
        · rw [h₁]
          exact Or.inl rfl
      rw [hhead, Nat.zero_add, flying_congr fun m hm => ?_]
      · exact flying_runGroups pos (j + 1) _ _ hc gs h₂ _ hs'
      · rw [proj_append, proj_eq_nil (not_in_head h₁ hm), List.nil_append]

end

section Run

variable {G : FixtureGraph} {config : Config} {g : Group} {x y : Sys} {t : List Label}

/-- **Tests in flight together** are tests of one group that may overlap. -/
theorem parallel_of_inFlight (hx : run config g = some x) (h : Sys.Run G x t y) {n m : Node}
    (hn : n ∈ g.leaves) (hm : m ∈ g.leaves) (hne : n.id ≠ m.id)
    (hfn : inFlight (calls t) n = true) (hfm : inFlight (calls t) m = true) :
    Parallel (g.nodes [] []) n m := by
  obtain ⟨w, hw, hpre⟩ := run_prefix hx h
  obtain ⟨hn, htn⟩ := Group.mem_leaves.mp hn
  obtain ⟨hm, htm⟩ := Group.mem_leaves.mp hm
  have hdone : ∀ {k : Node}, k ∈ g.nodes [] [] → inFlight (calls t) k = true →
      proj k.id (calls t) ≠ proj k.id w := by
    intro k hk hf he
    rcases hw.proj hk with hnil | hspan
    · rw [inFlight_of_nil (he.trans hnil)] at hf
      cases hf
    · rw [inFlight_of_span (he ▸ hspan)] at hf
      cases hf
  have hbegun : ∀ {k : Node}, inFlight (calls t) k = true → proj k.id (calls t) ≠ [] := by
    intro k hf hnil
    rw [inFlight_of_nil hnil] at hf
    cases hf
  cases hw.related hn hm hne with
  | outer he => exact absurd he (NodeId.not_encloses_test _ htn _)
  | inner he => exact absurd he (NodeId.not_encloses_test _ htm _)
  | apart _ _ ha =>
    rcases ha with ha | ha
    · rcases proj_of_before hne ha hpre with h | h
      · exact absurd h (hbegun hfm)
      · exact absurd h (hdone hn hfn)
    · rw [proj₂_comm] at ha
      rcases proj_of_before hne.symm ha hpre with h | h
      · exact absurd h (hbegun hfn)
      · exact absurd h (hdone hm hfm)
  | parallel hp => exact hp

/-- **At no point of a run** are more tests in flight than the configured number, or than one if
that is zero. -/
theorem flying_le (hx : run config g = some x) (h : Sys.Run G x t y) :
    flying (g.nodes [] []) (calls t) ≤ max 1 config.concurrency := by
  have hctx : (config.context g).concurrency = max 1 config.concurrency := by
    simp only [Config.context, RunContext.withConcurrency]
    split <;> omega
  obtain ⟨w, hw, hpre⟩ := run_prefix hx h
  obtain rfl | hw := hw
  · rw [List.prefix_nil.mp hpre, flying_eq_zero fun _ _ => inFlight_of_nil rfl]
    exact Nat.zero_le _
  · rw [← hctx]
    exact flying_runGroup [] [] _ (by omega) g hw _ hpre

end Run

/-! ## Trees as they are declared -/

/-- Tests in flight together are tests of one group, and every fixture that they or the groups
around them list allows it; and there are no more of them than the configured number. -/
structure Exclusive (d : GroupDecl) (concurrency : Nat) (w : List OpCall) : Prop where
  together : ∀ n ∈ d.nodes [] [], ∀ m ∈ d.nodes [] [], n.1.id.isTest = true → m.1.id.isTest = true →
    n.1.id ≠ m.1.id → inFlight w n.1 = true → inFlight w m.1 = true →
      n.1.id.pos = m.1.id.pos ∧ ∀ p ∈ d.nodes [] [],
        (p.1 = n.1 ∨ p.1 = m.1 ∨ p.1.id.Encloses n.1.id ∨ p.1.id.Encloses m.1.id) →
          ∀ f ∈ p.2.fixtures, f.testCanRunConcurrently = true
  bound : flying ((d.nodes [] []).map Prod.fst) w ≤ max 1 concurrency

/-- **Tests exclude each other** at every point of every run, unless they are tests of one group
and every fixture listed allows them to overlap, and no more of them are in flight than
configured. -/
theorem tests_exclusive {G : FixtureGraph} {config : Config} {d : GroupDecl} {x y : Sys}
    {t : List Label} (hx : run config d.group = some x) (h : Sys.Run G x t y) :
    Exclusive d config.concurrency (calls t) := by
  have hnodes := GroupDecl.nodes_map [] [] d
  have hmem : ∀ {n : GroupDecl.DeclNode}, n ∈ d.nodes [] [] → n.1 ∈ d.group.nodes [] [] :=
    fun hn => hnodes ▸ List.mem_map_of_mem hn
  refine ⟨fun n hn m hm htn htm hne hfn hfm => ?_, ?_⟩
  · have hpar := parallel_of_inFlight hx h (Group.mem_leaves.mpr ⟨hmem hn, htn⟩)
      (Group.mem_leaves.mpr ⟨hmem hm, htm⟩) hne hfn hfm
    refine ⟨hpar.pos, fun p hp hway => ?_⟩
    rw [← FixtureDecl.testCanRunConcurrently_iff, ← GroupDecl.nodes_fixture [] [] d p hp]
    rcases hway with he | he | he | he
    · exact he ▸ hpar.fixtureLeft
    · exact he ▸ hpar.fixtureRight
    · exact hpar.enclosing _ (hmem hp) he
    · exact hpar.symm.enclosing _ (hmem hp) he
  · rw [hnodes]
    exact flying_le hx h

/-- A group with two tests that may overlap. -/
def twoParallelTests : GroupDecl :=
  let shared : Fixture := { typeId := 1, testCanRunConcurrently := true }
  .mk ['r'] (.listed 0 []) [⟨['a'], .listed 2 [shared], none⟩, ⟨['b'], .listed 3 [shared], none⟩] []

/-- A schedule that starts both tests. -/
def startBoth : List Sys.Choice :=
  let root : NodeId := .group []
  let call : OpCall → Sys.Choice := fun c => .prog (.call c)
  let test : Nat → OpCall → Sys.Choice := fun i c => .prog (.run i (.call c))
  [call ⟨.enter root, ()⟩, call (recorded root ['r'] .setupLaunched),
    call ⟨.spawn root (.setup 0) DEFAULT_TIMEOUT, ()⟩, .act (.lockSetup root),
    .act (.setup root (.done [])), call ⟨.join root (.setup 0), .ok (some 0)⟩,
    call (recorded root ['r'] .setupPassed), .prog .start, .prog .start] ++
  [(0, ['r', ':', ':', 'a']), (1, ['r', ':', ':', 'b'])].flatMap fun (i, name) =>
    [test i ⟨.enter (.test [] i), ()⟩, test i (recorded (.test [] i) name .setupLaunched)]

/-- Two tests are in flight, and no more than two may be. -/
theorem tests_exclusive_twoParallelTests : ∃ x t y,
    run { concurrency := 2 } twoParallelTests.group = some x ∧ Sys.Run noDependencies x t y ∧
      flying ((twoParallelTests.nodes [] []).map Prod.fst) (calls t) = 2 ∧
      Exclusive twoParallelTests 2 (calls t) := by
  obtain ⟨x, hx⟩ := run_isSome { concurrency := 2 } twoParallelTests.group
  have hy : ((run { concurrency := 2 } twoParallelTests.group).bind fun x =>
      Sys.performAll noDependencies x startBoth).isSome = true := by decide +kernel
  rw [hx, Option.bind_some] at hy
  obtain ⟨y, hy⟩ := Option.isSome_iff_exists.mp hy
  have hrun := Sys.performAll_sound hy
  exact ⟨x, _, y, hx, hrun, by decide +kernel, tests_exclusive hx hrun⟩

end E2etest
