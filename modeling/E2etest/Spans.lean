import E2etest.Trace

/-!
# Who does what, and when

The operations of a run, sorted by the node that does them (`proj`).

* `proj_runGroup`: what a node does in a complete run is nothing or the word of a span.
* `related_runGroup`: two nodes of a tree either stand one inside the other, and then the inner one
  does all it does between the setup and the drop of the outer one, or one of them is done before
  the other one begins, or they are tests of one group that may run concurrently.
-/

namespace E2etest

open Async Text Prog

/-- The operations of one node. -/
def proj (n : NodeId) (w : List OpCall) : List OpCall := w.filter fun c => c.1.node = n

/-- The operations of two nodes. -/
def proj₂ (n m : NodeId) (w : List OpCall) : List OpCall :=
  w.filter fun c => c.1.node = n ∨ c.1.node = m

@[simp] theorem proj_nil (n : NodeId) : proj n [] = [] := rfl

@[simp] theorem proj_append (n : NodeId) (v w : List OpCall) :
    proj n (v ++ w) = proj n v ++ proj n w := List.filter_append _ _

@[simp] theorem proj₂_append (n m : NodeId) (v w : List OpCall) :
    proj₂ n m (v ++ w) = proj₂ n m v ++ proj₂ n m w := List.filter_append _ _

theorem proj₂_comm (n m : NodeId) (w : List OpCall) : proj₂ n m w = proj₂ m n w := by
  simp only [proj₂, or_comm]

theorem proj_proj₂ (n m : NodeId) (w : List OpCall) : proj n (proj₂ n m w) = proj n w := by
  simp only [proj, proj₂, List.filter_filter]
  refine List.filter_congr fun c _ => ?_
  by_cases h : c.1.node = n <;> simp [h]

/-- The word is done by one node. -/
def Owned (n : NodeId) (w : List OpCall) : Prop := ∀ c ∈ w, c.1.node = n

theorem Owned.proj_self {n : NodeId} {w : List OpCall} (h : Owned n w) : proj n w = w := by
  unfold proj
  rw [List.filter_eq_self]
  exact fun c hc => decide_eq_true (h c hc)

theorem proj_eq_nil {n : NodeId} {w : List OpCall} (h : ∀ c ∈ w, c.1.node ≠ n) :
    proj n w = [] := by
  unfold proj
  rw [List.filter_eq_nil_iff]
  exact fun c hc => by simpa using h c hc

theorem proj₂_eq_nil {n m : NodeId} {w : List OpCall} (hn : ∀ c ∈ w, c.1.node ≠ n)
    (hm : ∀ c ∈ w, c.1.node ≠ m) : proj₂ n m w = [] := by
  rw [proj₂, List.filter_eq_nil_iff]
  exact fun c hc => by simpa using ⟨hn c hc, hm c hc⟩

theorem proj₂_eq_left {n m : NodeId} {w : List OpCall} (h : ∀ c ∈ w, c.1.node ≠ m) :
    proj₂ n m w = proj n w := by
  refine List.filter_congr fun c hc => ?_
  simp [h c hc]

theorem proj₂_eq_right {n m : NodeId} {w : List OpCall} (h : ∀ c ∈ w, c.1.node ≠ n) :
    proj₂ n m w = proj m w := by
  rw [proj₂_comm, proj₂_eq_left h]

/-! ## The operations of a span -/

theorem owned_singleWord (n : NodeId) (job : Job) (timeout : Duration)
    (r : Except Unit job.Output) : Owned n (singleWord n job timeout r) := by
  rcases r with e | a <;> simp [Owned, singleWord, Op.node]

theorem owned_setupWord (n : NodeId) (name : Str) (kind : Task) (f : TypeId) (timeout : Duration)
    (r : Except Unit (Option Arc)) : Owned n (setupWord n name kind f timeout r) := by
  have := owned_singleWord n (.setup f) timeout r
  simp only [Owned, setupWord, List.cons_append, List.mem_cons, List.mem_append] at this ⊢
  rintro c (rfl | hc | rfl | hc)
  · rfl
  · exact this c hc
  · rfl
  · exact absurd hc List.not_mem_nil

theorem owned_testWord (n : NodeId) (name : Str) (a : Arc) (timeout : Duration)
    (r : Except Unit Unit) : Owned n (testWord n name a timeout r) := by
  have := owned_singleWord n (.test a) timeout r
  simp only [Owned, testWord, List.cons_append, List.mem_cons, List.mem_append] at this ⊢
  rintro c (rfl | hc | rfl | hc)
  · rfl
  · exact this c hc
  · rfl
  · exact absurd hc List.not_mem_nil

theorem owned_teardownWord (n : NodeId) (name : Str) (timeout : Duration) (r : Except Unit Unit) :
    Owned n (teardownWord n name timeout r) := by
  have := owned_singleWord n .teardown timeout r
  simp only [Owned, teardownWord, List.cons_append, List.mem_cons, List.mem_append] at this ⊢
  rintro c (rfl | hc | rfl | hc)
  · rfl
  · exact this c hc
  · rfl
  · exact absurd hc List.not_mem_nil

theorem owned_openWord (n : NodeId) (name : Str) (kind : Task) (f : Fixture)
    (defaultTimeout : Duration) (r : Except Unit (Option Arc)) :
    Owned n (openWord n name kind f defaultTimeout r) := by
  rintro c hc
  rcases List.mem_cons.mp hc with rfl | hc
  · rfl
  · exact owned_setupWord _ _ _ _ _ _ c hc

theorem owned_closeWord (n : NodeId) (name : Str) (f : Fixture) (defaultTimeout : Duration)
    (r : Except Unit (Option Arc)) (down : Except Unit Unit) :
    Owned n (closeWord n name f defaultTimeout r down) := by
  intro c hc
  rcases List.mem_append.mp hc with hc | hc
  · rcases r with e | _ | a
    · exact absurd hc List.not_mem_nil
    · exact absurd hc List.not_mem_nil
    · rw [List.mem_singleton.mp hc]
      rfl
  · exact owned_teardownWord _ _ _ _ c hc

/-- An operation of a span is the node's own, or one of those inside. -/
theorem mem_spanWord {n : NodeId} {name : Str} {kind : Task} {f : Fixture}
    {defaultTimeout : Duration} {r : Except Unit (Option Arc)} {mid : List OpCall}
    {down : Except Unit Unit} {c : OpCall}
    (hc : c ∈ spanWord n name kind f defaultTimeout r mid down) : c.1.node = n ∨ c ∈ mid := by
  rcases List.mem_append.mp hc with hc | hc
  · exact Or.inl (owned_openWord _ _ _ _ _ _ c hc)
  rcases List.mem_append.mp hc with hc | hc
  · exact Or.inr hc
  · exact Or.inl (owned_closeWord _ _ _ _ _ _ c hc)

/-- The operations of another node in a span are inside. -/
theorem proj_span {p : NodeId} {name : Str} {kind : Task} {f : Fixture} {dt : Duration}
    {r : Except Unit (Option Arc)} {mid : List OpCall} {down : Except Unit Unit} {k : NodeId}
    (hk : k ≠ p) : proj k (spanWord p name kind f dt r mid down) = proj k mid := by
  rw [spanWord, proj_append, proj_append,
    proj_eq_nil fun c hc he => hk (he.symm.trans (owned_openWord _ _ _ _ _ _ c hc)),
    proj_eq_nil fun c hc he => hk (he.symm.trans (owned_closeWord _ _ _ _ _ _ c hc)),
    List.append_nil, List.nil_append]

theorem runTest_owned {n : NodeId} {groupName : Str} {ctx : RunContext} {t : Test}
    {w : List OpCall} (h : Completes (runTest n groupName ctx t) w ()) : Owned n w := by
  obtain ⟨r, mid, down, rfl, hmid⟩ := completes_runTest.mp h
  intro c hc
  rcases mem_spanWord hc with hc | hc
  · exact hc
  · obtain ⟨a, -, body, rfl⟩ | ⟨-, rfl⟩ := hmid
    · exact owned_testWord _ _ _ _ _ c hc
    · exact absurd hc List.not_mem_nil

/-! ## The tests of one phase -/

theorem mem_phase {parentNames : List Str} {ctx : RunContext} {b : Bool} {ts : List Test}
    {x : Test × Nat} : x ∈ phase parentNames ctx b ts ↔ ts[x.2]? = some x.1 ∧
      ctx.filter.considerTest parentNames x.1.name = true ∧
      ctx.isConcurrencyEnabled x.1.canRunConcurrently = b := by
  simp only [phase, List.mem_filter, List.mem_zipIdx_iff_getElem?, and_assoc, beq_iff_eq]

theorem phase_nodup (parentNames : List Str) (ctx : RunContext) (b : Bool) (ts : List Test) :
    ((phase parentNames ctx b ts).map Prod.snd).Nodup := by
  have h : (ts.zipIdx.map Prod.snd).Nodup := by
    rw [List.zipIdx_map_snd]
    exact List.nodup_range'
  exact h.sublist ((List.filter_sublist.trans List.filter_sublist).map Prod.snd)

section Phase

variable {pos : List Nat} {parentNames : List Str} {ctx : RunContext} {b : Bool} {ts : List Test}
  {ls : List (List OpCall)}

/-- Every word of a phase belongs to one test of the phase. -/
theorem TestWords.owned (h : TestWords pos parentNames ctx b ts ls) :
    ∀ l ∈ ls, ∃ x ∈ phase parentNames ctx b ts, Owned (.test pos x.2) l := by
  intro l hl
  obtain ⟨x, hx, hw⟩ := forall₂_mem_right h l hl
  exact ⟨x, hx, runTest_owned hw⟩

/-- A test of the phase has one word, and the other words belong to other tests. -/
theorem TestWords.split (h : TestWords pos parentNames ctx b ts ls) {t : Test} {i : Nat}
    (hx : (t, i) ∈ phase parentNames ctx b ts) :
    ∃ before l after, ls = before ++ l :: after ∧
      Completes (runTest (.test pos i) (join parentNames) ctx t) l () ∧
      ∀ v ∈ before ++ after, ∃ j, j ≠ i ∧ Owned (.test pos j) v := by
  obtain ⟨xs, ys, hphase⟩ := List.append_of_mem hx
  have hnodup := phase_nodup parentNames ctx b ts
  unfold TestWords at h
  rw [hphase] at h hnodup
  obtain ⟨before, _, rfl, hb, hrest⟩ := forall₂_append_left h
  obtain ⟨l, after, hl, ha, rfl⟩ := List.forall₂_cons_left_iff.mp hrest
  rw [List.map_append, List.map_cons, List.nodup_middle, List.nodup_cons] at hnodup
  refine ⟨before, l, after, rfl, hl, fun v hv => ?_⟩
  rw [← List.map_append] at hnodup
  obtain ⟨x, hx', hw⟩ := forall₂_mem_right (List.rel_append hb ha) v hv
  exact ⟨x.2, fun he => hnodup.1 (List.mem_map.mpr ⟨x, hx', he⟩), runTest_owned hw⟩

variable {n : Nat} {w : List OpCall}

/-- The operations of a phase are done by its tests. -/
theorem phase_nodes (h : TestWords pos parentNames ctx b ts ls) (hi : Interleave n [] ls w) :
    ∀ c ∈ w, ∃ x ∈ phase parentNames ctx b ts, c.1.node = .test pos x.2 := by
  intro c hc
  obtain ⟨l, hl, hcl⟩ := hi.mem_iff.mp hc
  obtain ⟨x, hx, ho⟩ := h.owned l (by simpa using hl)
  exact ⟨x, hx, ho c hcl⟩

/-- What a test of a phase does is a complete word of `run_test`. -/
theorem proj_phase (h : TestWords pos parentNames ctx b ts ls) (hi : Interleave n [] ls w)
    {t : Test} {i : Nat} (hx : (t, i) ∈ phase parentNames ctx b ts) :
    Completes (runTest (.test pos i) (join parentNames) ctx t) (proj (.test pos i) w) () := by
  obtain ⟨before, l, after, hls, hl, hother⟩ := h.split hx
  have hnil : ∀ v ∈ before ++ after, proj (.test pos i) v = [] := by
    intro v hv
    obtain ⟨j, hj, ho⟩ := hother v hv
    refine proj_eq_nil fun c hc he => hj ?_
    rw [ho c hc] at he
    exact (NodeId.test.inj he).2
  have : proj (.test pos i) w = l := by
    rw [← (runTest_owned hl).proj_self]
    exact hi.filter_eq _ hls (fun v hv => hnil v (List.mem_append_left _ hv))
      fun v hv => hnil v (List.mem_append_right _ hv)
  rwa [this]

end Phase

/-! ## The nodes of a run -/

section Inside

variable {pos : List Nat} {parentNames : List Str} {ctx : RunContext} {ts : List Test}
  {gs : List Group} {w : List OpCall}

theorem phase_testNodes {b : Bool} {ls : List (List OpCall)} {n : Nat} {v : List OpCall}
    (h : TestWords pos parentNames ctx b ts ls) (hi : Interleave n [] ls v) :
    ∀ c ∈ v, ∃ m ∈ Group.testNodes pos parentNames ts, m.id = c.1.node := by
  intro c hc
  obtain ⟨x, hx, he⟩ := phase_nodes h hi c hc
  exact ⟨_, Group.mem_testNodes.mpr ⟨x.1, x.2, (mem_phase.mp hx).1, rfl⟩, he.symm⟩

/-- The operations inside a group are done by what is below it. -/
theorem inside_nodes (h : Completes (groupInside pos parentNames ctx ts gs) w ())
    (hgs : ∀ {v}, Completes (runGroups pos 0 parentNames ctx gs) v () →
      ∀ c ∈ v, ∃ m ∈ Group.nodesOf pos 0 parentNames gs, m.id = c.1.node) :
    ∀ c ∈ w, ∃ m ∈ Group.nodesOf pos 0 parentNames gs ++ Group.testNodes pos parentNames ts,
      m.id = c.1.node := by
  obtain ⟨t₁, t₂, t₃, ls₂, ls₃, rfl, h₁, h₂, hi, h₃, rfl⟩ := completes_groupInside h
  intro c hc
  rcases List.mem_append.mp hc with hc | hc
  · obtain ⟨m, hm, he⟩ := hgs h₁ c hc
    exact ⟨m, List.mem_append_left _ hm, he⟩
  rcases List.mem_append.mp hc with hc | hc
  · obtain ⟨m, hm, he⟩ := phase_testNodes h₂ hi c hc
    exact ⟨m, List.mem_append_right _ hm, he⟩
  · obtain ⟨m, hm, he⟩ := phase_testNodes (n := 0) h₃ (.flatten ls₃) c hc
    exact ⟨m, List.mem_append_right _ hm, he⟩

end Inside

mutual

/-- The operations of a group are done by its nodes. -/
theorem runGroup_nodes (pos : List Nat) (parentNames : List Str) (ctx : RunContext) :
    ∀ (g : Group) {w : List OpCall}, Completes (runGroup pos parentNames ctx g) w () →
      ∀ c ∈ w, ∃ m ∈ g.nodes pos parentNames, m.id = c.1.node
  | .mk name f ts gs, w, h => by
    obtain ⟨r, mid, down, rfl, hmid⟩ := completes_runGroup.mp h
    intro c hc
    rcases mem_spanWord hc with hc | hc
    · exact ⟨_, List.mem_cons_self, hc.symm⟩
    obtain ⟨a, -, hmid⟩ | ⟨-, rfl⟩ := hmid
    · obtain ⟨m, hm, he⟩ := inside_nodes hmid (runGroups_nodes pos 0 _ _ gs) c hc
      exact ⟨m, List.mem_cons_of_mem _ hm, he⟩
    · exact absurd hc List.not_mem_nil

theorem runGroups_nodes (pos : List Nat) (j : Nat) (parentNames : List Str) (ctx : RunContext) :
    ∀ (gs : List Group) {w : List OpCall}, Completes (runGroups pos j parentNames ctx gs) w () →
      ∀ c ∈ w, ∃ m ∈ Group.nodesOf pos j parentNames gs, m.id = c.1.node
  | [], w, h => by
    obtain ⟨rfl, -⟩ := completes_pure.mp h
    simp
  | g :: gs, w, h => by
    obtain ⟨t₁, t₂, rfl, h₁, h₂⟩ := completes_runGroups_cons.mp h
    intro c hc
    rcases List.mem_append.mp hc with hc | hc
    · split at h₁
      · obtain ⟨m, hm, he⟩ := runGroup_nodes (pos ++ [j]) _ _ g h₁ c hc
        exact ⟨m, List.mem_append_left _ hm, he⟩
      · rw [h₁] at hc
        exact absurd hc List.not_mem_nil
    · obtain ⟨m, hm, he⟩ := runGroups_nodes pos (j + 1) _ _ gs h₂ c hc
      exact ⟨m, List.mem_append_right _ hm, he⟩

end

section Cons

variable {pos : List Nat} {j : Nat} {parentNames : List Str} {ctx : RunContext} {g : Group}
  {gs : List Group} {n m : Node} {t₁ t₂ : List OpCall}

/-- The nodes of the other subgroups do nothing while the first one runs. -/
theorem not_in_head (h₁ : if ctx.filter.considerGroup parentNames g.name then
      Completes (runGroup (pos ++ [j]) parentNames ctx g) t₁ () else t₁ = [])
    (hm : m ∈ Group.nodesOf pos (j + 1) parentNames gs) : ∀ c ∈ t₁, c.1.node ≠ m.id := by
  intro c hc he
  split at h₁
  · obtain ⟨m', hm', hid⟩ := runGroup_nodes (pos ++ [j]) _ _ g h₁ c hc
    exact Group.nodesOf_ne_nodes hm' hm (hid.trans he)
  · rw [h₁] at hc
    exact absurd hc List.not_mem_nil

/-- The nodes of the first subgroup do nothing while the other ones run. -/
theorem not_in_rest (h₂ : Completes (runGroups pos (j + 1) parentNames ctx gs) t₂ ())
    (hn : n ∈ g.nodes (pos ++ [j]) parentNames) : ∀ c ∈ t₂, c.1.node ≠ n.id := by
  intro c hc he
  obtain ⟨m', hm', hid⟩ := runGroups_nodes pos (j + 1) _ _ gs h₂ c hc
  exact Group.nodesOf_ne_nodes hn hm' (he.symm.trans hid.symm)

end Cons

/-! ## What one node does -/

/-- Which setups a node's setup is counted among. -/
def Node.kind (m : Node) : Task := if m.id.isTest then .test else .group

/-- The word of the node's span, less what its children do. -/
def IsSpan (m : Node) (defaultTimeout : Duration) (w : List OpCall) : Prop :=
  ∃ r mid down, w = spanWord m.id m.path m.kind m.fixture defaultTimeout r mid down ∧
    Passed r mid fun a => if m.id.isTest then
      ∃ timeout body, mid = testWord m.id m.path a timeout body else mid = []

section Inside

variable {pos : List Nat} {parentNames : List Str} {ctx : RunContext} {ts : List Test}
  {gs : List Group} {w : List OpCall}

/-- What a group does itself leaves out what is inside. -/
theorem not_group_inside (h : Completes (groupInside pos parentNames ctx ts gs) w ()) :
    ∀ c ∈ w, c.1.node ≠ .group pos := by
  intro c hc he
  obtain ⟨m, hm, hid⟩ := inside_nodes h (runGroups_nodes pos 0 _ _ gs) c hc
  rcases List.mem_append.mp hm with hm | hm
  · exact Group.group_ne_nodesOf hm (hid.trans he)
  · obtain ⟨t, i, -, rfl⟩ := Group.mem_testNodes.mp hm
    cases hid.trans he

theorem not_test_groups {v : List OpCall} (h : Completes (runGroups pos 0 parentNames ctx gs) v ())
    (i : Nat) : ∀ c ∈ v, c.1.node ≠ .test pos i := by
  intro c hc he
  obtain ⟨m, hm, hid⟩ := runGroups_nodes pos 0 _ _ gs h c hc
  exact Group.test_ne_nodesOf hm i (hid.trans he)

theorem not_below_phase {b : Bool} {ls : List (List OpCall)} {n : Nat} {v : List OpCall}
    (h : TestWords pos parentNames ctx b ts ls) (hi : Interleave n [] ls v) {m : Node}
    (hm : m ∈ Group.nodesOf pos 0 parentNames gs) : ∀ c ∈ v, c.1.node ≠ m.id := by
  intro c hc he
  obtain ⟨x, -, hx⟩ := phase_nodes h hi c hc
  exact Group.test_ne_nodesOf hm x.2 (he.symm.trans hx)

/-- What stands below the subgroups is done in the loop over them. -/
theorem proj_inside_groups (h : Completes (groupInside pos parentNames ctx ts gs) w ()) :
    ∃ v, Completes (runGroups pos 0 parentNames ctx gs) v () ∧
      ∀ m ∈ Group.nodesOf pos 0 parentNames gs, proj m.id w = proj m.id v := by
  obtain ⟨t₁, t₂, t₃, ls₂, ls₃, rfl, h₁, h₂, hi, h₃, rfl⟩ := completes_groupInside h
  refine ⟨t₁, h₁, fun m hm => ?_⟩
  rw [proj_append, proj_append, proj_eq_nil (not_below_phase h₂ hi hm),
    proj_eq_nil (not_below_phase (n := 0) h₃ (.flatten ls₃) hm), List.append_nil, List.append_nil]

theorem not_in_phase {b : Bool} {ls : List (List OpCall)} {n : Nat} {v : List OpCall}
    (h : TestWords pos parentNames ctx b ts ls) (hi : Interleave n [] ls v) {t : Test} {i : Nat}
    (ht : ts[i]? = some t) (hx : (t, i) ∉ phase parentNames ctx b ts) :
    ∀ c ∈ v, c.1.node ≠ .test pos i := by
  intro c hc he
  obtain ⟨⟨t', i'⟩, hx', hn⟩ := phase_nodes h hi c hc
  obtain rfl : i = i' := (NodeId.test.inj (he.symm.trans hn)).2
  obtain rfl : t' = t := Option.some.inj ((mem_phase.mp hx').1.symm.trans ht)
  exact hx hx'

/-- **A test of a group** is run once if the filter lets it through, and not at all otherwise. -/
theorem proj_inside_test (h : Completes (groupInside pos parentNames ctx ts gs) w ()) {t : Test}
    {i : Nat} (ht : ts[i]? = some t) :
    if ctx.filter.considerTest parentNames t.name then
      Completes (runTest (.test pos i) (join parentNames) ctx t) (proj (.test pos i) w) ()
    else proj (.test pos i) w = [] := by
  obtain ⟨t₁, t₂, t₃, ls₂, ls₃, rfl, h₁, h₂, hi, h₃, rfl⟩ := completes_groupInside h
  rw [proj_append, proj_append, proj_eq_nil (not_test_groups h₁ i), List.nil_append]
  have hphase : ∀ b, (t, i) ∈ phase parentNames ctx b ts ↔
      ctx.filter.considerTest parentNames t.name = true ∧
        ctx.isConcurrencyEnabled t.canRunConcurrently = b := by
    simp [mem_phase, ht]
  split
  · rename_i hc
    cases hb : ctx.isConcurrencyEnabled t.canRunConcurrently with
    | true =>
      have hin : (t, i) ∈ phase parentNames ctx true ts := (hphase true).mpr ⟨hc, hb⟩
      have hout : (t, i) ∉ phase parentNames ctx false ts := by simp [hphase, hb]
      rw [proj_eq_nil (not_in_phase (n := 0) h₃ (.flatten ls₃) ht hout), List.append_nil]
      exact proj_phase h₂ hi hin
    | false =>
      have hin : (t, i) ∈ phase parentNames ctx false ts := (hphase false).mpr ⟨hc, hb⟩
      have hout : (t, i) ∉ phase parentNames ctx true ts := by simp [hphase, hb]
      rw [proj_eq_nil (not_in_phase h₂ hi ht hout), List.nil_append]
      exact proj_phase (n := 0) h₃ (.flatten ls₃) hin
  · rename_i hc
    have hout : ∀ b, (t, i) ∉ phase parentNames ctx b ts := fun b hb => hc ((hphase b).mp hb).1
    rw [proj_eq_nil (not_in_phase h₂ hi ht (hout true)),
      proj_eq_nil (not_in_phase (n := 0) h₃ (.flatten ls₃) ht (hout false)), List.append_nil]

end Inside

theorem isSpan_runTest {pos : List Nat} {parentNames : List Str} {ctx : RunContext} {t : Test}
    {i : Nat} {w : List OpCall} (hne : parentNames ≠ [])
    (h : Completes (runTest (.test pos i) (join parentNames) ctx t) w ()) :
    IsSpan ⟨.test pos i, parentNames, t.name, t.fixture⟩ ctx.defaultTimeout w := by
  obtain ⟨r, mid, down, rfl, hmid⟩ := completes_runTest.mp h
  refine ⟨r, mid, down, ?_, ?_⟩
  · unfold Node.path Node.names
    rw [join_concat hne]
    rfl
  · refine hmid.imp_left ?_
    rintro ⟨a, ha, body, rfl⟩
    refine ⟨a, ha, ?_⟩
    change ∃ timeout body, _
    unfold Node.path Node.names
    rw [join_concat hne]
    exact ⟨_, body, rfl⟩

mutual

/-- **What a node does** in a complete run is nothing or the word of its span. -/
theorem proj_runGroup (pos : List Nat) (parentNames : List Str) (ctx : RunContext) :
    ∀ (g : Group) {w : List OpCall}, Completes (runGroup pos parentNames ctx g) w () →
      ∀ m ∈ g.nodes pos parentNames,
        proj m.id w = [] ∨ IsSpan m ctx.defaultTimeout (proj m.id w)
  | .mk name f ts gs, w, h => by
    obtain ⟨r, mid, down, rfl, hmid⟩ := completes_runGroup.mp h
    refine List.forall_mem_cons.mpr ⟨Or.inr ?_, fun m hm => ?_⟩
    · have hnil : proj (.group pos) mid = [] := by
        obtain ⟨a, -, hmid⟩ | ⟨-, rfl⟩ := hmid
        · exact proj_eq_nil (not_group_inside hmid)
        · rfl
      refine ⟨r, [], down, ?_, hmid.imp (fun ⟨a, ha, _⟩ => ⟨a, ha, rfl⟩) fun h => ⟨h.1, rfl⟩⟩
      rw [spanWord, proj_append, proj_append, hnil, (owned_openWord _ _ _ _ _ _).proj_self,
        (owned_closeWord _ _ _ _ _ _).proj_self]
      rfl
    · rw [proj_span (Group.ne_group_of_below hm)]
      obtain ⟨a, -, hmid⟩ | ⟨-, rfl⟩ := hmid
      · rcases List.mem_append.mp hm with hm | hm
        · obtain ⟨v, hv, hproj⟩ := proj_inside_groups hmid
          rw [hproj m hm]
          exact proj_runGroups pos 0 _ _ gs hv m hm
        · obtain ⟨t, i, ht, rfl⟩ := Group.mem_testNodes.mp hm
          have := proj_inside_test hmid ht
          split at this
          · exact Or.inr (isSpan_runTest (by simp) this)
          · exact Or.inl this
      · exact Or.inl rfl

theorem proj_runGroups (pos : List Nat) (j : Nat) (parentNames : List Str) (ctx : RunContext) :
    ∀ (gs : List Group) {w : List OpCall}, Completes (runGroups pos j parentNames ctx gs) w () →
      ∀ m ∈ Group.nodesOf pos j parentNames gs,
        proj m.id w = [] ∨ IsSpan m ctx.defaultTimeout (proj m.id w)
  | [], w, h => by simp [Group.nodesOf]
  | g :: gs, w, h => by
    obtain ⟨t₁, t₂, rfl, h₁, h₂⟩ := completes_runGroups_cons.mp h
    intro m hm
    rw [proj_append]
    rcases List.mem_append.mp hm with hm | hm
    · rw [proj_eq_nil (not_in_rest h₂ hm), List.append_nil]
      split at h₁
      · exact proj_runGroup (pos ++ [j]) _ _ g h₁ m hm
      · rw [h₁]
        exact Or.inl rfl
    · rw [proj_eq_nil (not_in_head h₁ hm), List.nil_append]
      exact proj_runGroups pos (j + 1) _ _ gs h₂ m hm

end

end E2etest
