import E2etest.Drive
import E2etest.Settling

/-!
# The order of a run

A group runs its subgroups one after the other, then its tests that may overlap others, then the
other ones one after the other, each in the order of their numbers. `Before` is that order, read off
the tree.

* `before_or`: it says of any two nodes which one comes first, unless one of them is around the other
  or they are tests of one group that may overlap.
* `in_order`: every run keeps to it, whatever the schedule: as soon as a node has begun, the nodes
  before it do nothing more.
-/

namespace E2etest

open Async Text Prog

/-! ## Where two positions part -/

/-- One position is below the other, or they part at some place. -/
theorem prefix_or_part : ∀ u v : List Nat, u <+: v ∨ v <+: u ∨
    ∃ a i j, i ≠ j ∧ a ++ [i] <+: u ∧ a ++ [j] <+: v
  | [], v => Or.inl List.nil_prefix
  | u, [] => Or.inr (Or.inl List.nil_prefix)
  | x :: u, y :: v => by
    by_cases hxy : x = y
    · subst hxy
      rcases prefix_or_part u v with h | h | ⟨a, i, j, hij, hi, hj⟩
      · exact Or.inl ((List.prefix_cons_inj x).mpr h)
      · exact Or.inr (Or.inl ((List.prefix_cons_inj x).mpr h))
      · exact Or.inr (Or.inr ⟨x :: a, i, j, hij, (List.prefix_cons_inj x).mpr hi,
          (List.prefix_cons_inj x).mpr hj⟩)
    · exact Or.inr (Or.inr ⟨[], x, y, hxy, by simp, by simp⟩)

theorem concat_prefix_inj {a u : List Nat} {i j : Nat} (hi : a ++ [i] <+: u)
    (hj : a ++ [j] <+: u) : i = j := by
  have h := List.prefix_of_prefix_length_le hi hj (by simp)
  simpa using h.eq_of_length (by simp)

theorem not_prefix_concat {a u : List Nat} {i : Nat} (hi : a ++ [i] <+: u) : ¬ u <+: a := by
  intro h
  have := (hi.trans h).length_le
  rw [List.length_append, List.length_singleton] at this
  omega

/-- Two positions part at one place only. -/
theorem part_unique {a b u v : List Nat} {i j k l : Nat} (hij : i ≠ j) (hkl : k ≠ l)
    (hi : a ++ [i] <+: u) (hj : a ++ [j] <+: v) (hk : b ++ [k] <+: u) (hl : b ++ [l] <+: v) :
    i = k ∧ j = l := by
  -- the shorter way to a parting goes on below it, to both sides
  have hlonger : ∀ {a b : List Nat} {i j k l : Nat}, i ≠ j → a ++ [i] <+: u → a ++ [j] <+: v →
      b ++ [k] <+: u → b ++ [l] <+: v → ¬ a.length < b.length := by
    intro a b i j k l hij hi hj hk hl hlt
    have hlen : ∀ i, (a ++ [i]).length ≤ b.length := fun i => by
      rw [List.length_append, List.length_singleton]
      omega
    have hbi : a ++ [i] <+: b := List.prefix_of_prefix_length_le hi
      ((List.prefix_append b [k]).trans hk) (hlen i)
    have hbj : a ++ [j] <+: b := List.prefix_of_prefix_length_le hj
      ((List.prefix_append b [l]).trans hl) (hlen j)
    exact hij (concat_prefix_inj hbi hbj)
  have hlen : a.length = b.length := by
    have h₁ := hlonger hij hi hj hk hl
    have h₂ := hlonger hkl hk hl hi hj
    omega
  have hab : a = b := by
    have ha := (List.prefix_append a [i]).trans hi
    have hb := (List.prefix_append b [k]).trans hk
    exact (List.prefix_of_prefix_length_le ha hb hlen.le).eq_of_length hlen
  subst hab
  exact ⟨concat_prefix_inj hi hk, concat_prefix_inj hj hl⟩

/-! ## The order -/

/-- The test's fixture, and those of the groups around it, allow it to overlap other tests. -/
def MayOverlap (nodes : List Node) (n : Node) : Prop :=
  n.fixture.testCanRunConcurrently = true ∧
    ∀ p ∈ nodes, p.id.Encloses n.id → p.fixture.testCanRunConcurrently = true

/-- The first node comes before the second. -/
inductive Before (overlaps : Node → Prop) (n m : Node) : Prop
  /-- They stand in different subgroups of one group. -/
  | groups (pos : List Nat) (i j : Nat) (hij : i < j) (hn : pos ++ [i] <+: n.id.pos)
      (hm : pos ++ [j] <+: m.id.pos)
  /-- A subgroup of a group comes before a test of it. -/
  | groupTest (pos : List Nat) (i k : Nat) (hn : pos ++ [i] <+: n.id.pos) (hm : m.id = .test pos k)
  | concurrent (pos : List Nat) (i j : Nat) (hn : n.id = .test pos i) (hm : m.id = .test pos j)
      (hov : overlaps n) (hno : ¬ overlaps m)
  | sequential (pos : List Nat) (i j : Nat) (hij : i < j) (hn : n.id = .test pos i)
      (hm : m.id = .test pos j) (hno : ¬ overlaps n) (hno' : ¬ overlaps m)

section Before

variable {overlaps : Node → Prop} {n m : Node}

/-- A node that stands no deeper, on the same way, is a test before another one of its group. -/
theorem Before.of_prefix (h : Before overlaps n m) (hp : n.id.pos <+: m.id.pos) :
    ∃ pos i j, n.id = .test pos i ∧ m.id = .test pos j := by
  cases h with
  | groups pos i j hij hn hm => exact absurd (concat_prefix_inj (hn.trans hp) hm) (by omega)
  | groupTest pos i k hn hm =>
    rw [hm] at hp
    exact absurd hp (not_prefix_concat hn)
  | concurrent pos i j hn hm _ _ | sequential pos i j _ hn hm _ _ => exact ⟨pos, i, j, hn, hm⟩

/-- A node after one that stands below it is a test. -/
theorem Before.isTest_of_prefix (h : Before overlaps n m) (hp : m.id.pos <+: n.id.pos) :
    m.id.isTest = true := by
  cases h with
  | groups pos i j hij hn hm => exact absurd (concat_prefix_inj hn (hm.trans hp)) (by omega)
  | groupTest pos i j _ hm | concurrent pos i j _ hm _ _ | sequential pos i j _ _ hm _ _ =>
    rw [hm]
    rfl

/-- Where two nodes part, the one before comes first. -/
theorem Before.lt_of_part (h : Before overlaps n m) {a : List Nat} {i j : Nat} (hij : i ≠ j)
    (hi : a ++ [i] <+: n.id.pos) (hj : a ++ [j] <+: m.id.pos) : i < j := by
  have htest : ∀ {pos k}, m.id = .test pos k → ¬ pos <+: n.id.pos := fun hm hp => by
    rw [hm] at hj
    exact hij (concat_prefix_inj hi (hj.trans hp))
  cases h with
  | groups pos k l hkl hn hm =>
    obtain ⟨rfl, rfl⟩ := part_unique hij hkl.ne hi hj hn hm
    exact hkl
  | groupTest pos k l hn hm => exact absurd ((List.prefix_append pos [k]).trans hn) (htest hm)
  | concurrent pos k l hn hm _ _ | sequential pos k l _ hn hm _ _ =>
    exact absurd (by rw [hn]; exact List.prefix_rfl) (htest hm)

/-- **Nothing else is left open.** -/
theorem before_or (hne : n.id ≠ m.id) (hn : ¬ n.id.Encloses m.id) (hm : ¬ m.id.Encloses n.id) :
    Before overlaps n m ∨ Before overlaps m n ∨
      ∃ pos i j, n.id = .test pos i ∧ m.id = .test pos j ∧ overlaps n ∧ overlaps m := by
  have hbelow : ∀ {n m : Node}, n.id ≠ m.id → ¬ n.id.Encloses m.id → n.id.pos <+: m.id.pos →
      n.id.pos ≠ m.id.pos → Before overlaps m n := by
    intro n m hne hn hp hpos
    obtain ⟨_ | ⟨k, r⟩, hr⟩ := hp
    · exact absurd (by rw [← hr, List.append_nil]) hpos
    · cases hid : n.id with
      | group q =>
        refine absurd ?_ hn
        rw [hid] at hr hpos ⊢
        cases hid' : m.id with
        | group q' =>
          rw [hid'] at hr hpos
          exact ⟨⟨_, hr⟩, hpos⟩
        | test q' i =>
          rw [hid'] at hr
          exact ⟨_, hr⟩
      | test q i =>
        rw [hid] at hr
        exact .groupTest q k i ⟨r, by rw [← hr]; simp [NodeId.pos]⟩ hid
  by_cases hpos : n.id.pos = m.id.pos
  · cases hnid : n.id with
    | group q =>
      refine absurd ?_ hn
      rw [hnid] at hpos hne ⊢
      cases hmid : m.id with
      | group q' =>
        rw [hmid] at hpos hne
        exact absurd (congrArg NodeId.group hpos) hne
      | test q' j =>
        rw [hmid] at hpos
        obtain rfl : q = q' := hpos
        exact List.prefix_rfl
    | test q i =>
      cases hmid : m.id with
      | group q' =>
        refine absurd ?_ hm
        rw [hnid, hmid] at hpos
        rw [hnid, hmid]
        obtain rfl : q = q' := hpos
        exact List.prefix_rfl
      | test q' j =>
        rw [hnid, hmid] at hpos
        obtain rfl : q = q' := hpos
        have hij : i ≠ j := fun he => hne (by rw [hnid, hmid, he])
        by_cases hon : overlaps n
        · by_cases hom : overlaps m
          · exact Or.inr (Or.inr ⟨q, i, j, rfl, rfl, hon, hom⟩)
          · exact Or.inl (.concurrent q i j hnid hmid hon hom)
        · by_cases hom : overlaps m
          · exact Or.inr (Or.inl (.concurrent q j i hmid hnid hom hon))
          · rcases Nat.lt_or_gt_of_ne hij with hlt | hlt
            · exact Or.inl (.sequential q i j hlt hnid hmid hon hom)
            · exact Or.inr (Or.inl (.sequential q j i hlt hmid hnid hom hon))
  · rcases prefix_or_part n.id.pos m.id.pos with hp | hp | ⟨a, i, j, hij, hi, hj⟩
    · exact Or.inr (Or.inl (hbelow hne hn hp hpos))
    · exact Or.inl (hbelow hne.symm hm hp (Ne.symm hpos))
    · rcases Nat.lt_or_gt_of_ne hij with hlt | hlt
      · exact Or.inl (.groups a i j hlt hi hj)
      · exact Or.inr (Or.inl (.groups a j i hlt hj hi))

end Before

/-- What encloses the test among more nodes. -/
theorem mayOverlap_append {nodes nodes' : List Node} {n : Node}
    (h : ∀ p ∈ nodes', ¬ p.id.Encloses n.id) :
    MayOverlap (nodes ++ nodes') n ↔ MayOverlap nodes n := by
  refine and_congr_right fun _ => ⟨fun hall p hp => hall p (List.mem_append_left _ hp), ?_⟩
  intro hall p hp he
  rcases List.mem_append.mp hp with hp | hp
  · exact hall p hp he
  · exact absurd he (h p hp)

theorem mayOverlap_append_right {nodes nodes' : List Node} {n : Node}
    (h : ∀ p ∈ nodes, ¬ p.id.Encloses n.id) :
    MayOverlap (nodes ++ nodes') n ↔ MayOverlap nodes' n := by
  refine and_congr_right fun _ => ⟨fun hall p hp => hall p (List.mem_append_right _ hp), ?_⟩
  intro hall p hp he
  rcases List.mem_append.mp hp with hp | hp
  · exact absurd he (h p hp)
  · exact hall p hp he

/-! ## The order of a word -/

/-- What the first node does comes first. -/
def First (n m : NodeId) (w : List OpCall) : Prop :=
  w.Pairwise fun c d => c.1.node = m → d.1.node ≠ n

section First

variable {n m : NodeId} {v w : List OpCall}

theorem first_of_left (h : ∀ c ∈ w, c.1.node ≠ n) : First n m w :=
  List.pairwise_of_forall_mem_list fun _ _ d hd _ => h d hd

theorem first_of_right (h : ∀ c ∈ w, c.1.node ≠ m) : First n m w :=
  List.pairwise_of_forall_mem_list fun c hc _ _ he => absurd he (h c hc)

theorem First.append (hv : First n m v) (hw : First n m w)
    (h : (∀ c ∈ v, c.1.node ≠ m) ∨ ∀ c ∈ w, c.1.node ≠ n) : First n m (v ++ w) :=
  List.pairwise_append.mpr ⟨hv, hw, fun c hc d hd he =>
    h.elim (fun h => absurd he (h c hc)) fun h => h d hd⟩

/-- The first node does all it does in the first part, and the second one in the second. -/
theorem first_append (hv : ∀ c ∈ v, c.1.node ≠ m) (hw : ∀ c ∈ w, c.1.node ≠ n) :
    First n m (v ++ w) := (first_of_right hv).append (first_of_left hw) (Or.inl hv)

/-- A group's own operations say nothing of what is below it. -/
theorem First.span {p : NodeId} {name : Str} {kind : Task} {f : Fixture} {dt : Duration}
    {r : Except Unit (Option Arc)} {mid : List OpCall} {down : Except Unit Unit}
    (h : First n m mid) (hn : n ≠ p) (hm : m ≠ p) :
    First n m (spanWord p name kind f dt r mid down) := by
  have hout : ∀ {u k}, Owned p u → k ≠ p → ∀ c ∈ u, c.1.node ≠ k := fun ho hk c hc he =>
    hk (he.symm.trans (ho c hc))
  have hopen := owned_openWord p name kind f dt r
  have hclose := owned_closeWord p name f dt r down
  refine (first_of_left (hout hopen hn)).append (h.append (first_of_left (hout hclose hn))
    (Or.inr (hout hclose hn))) (Or.inl (hout hopen hm))

/-- Tests that are done one after the other. -/
theorem first_flatten {pos : List Nat} {i j : Nat} (hij : i < j) :
    ∀ {xs : List (Test × Nat)} {ls : List (List OpCall)},
      (xs.map Prod.snd).Pairwise (· < ·) →
      List.Forall₂ (fun x l => Owned (.test pos x.2) l) xs ls →
      First (.test pos i) (.test pos j) ls.flatten
  | [], _, _, h => by
    obtain rfl := List.forall₂_nil_left_iff.mp h
    exact .nil
  | x :: xs, _, hsorted, h => by
    obtain ⟨l, ls, hl, hls, rfl⟩ := List.forall₂_cons_left_iff.mp h
    rw [List.map_cons, List.pairwise_cons] at hsorted
    have hne : ∀ {k}, x.2 ≠ k → ∀ c ∈ l, c.1.node ≠ .test pos k := fun hk c hc he =>
      hk (NodeId.test.inj ((hl c hc).symm.trans he)).2
    rw [List.flatten_cons]
    by_cases hj : x.2 = j
    · refine First.append (first_of_left (hne (by omega))) (first_flatten hij hsorted.2 hls)
        (Or.inr fun c hc he => ?_)
      obtain ⟨l', hl', hcl⟩ := List.mem_flatten.mp hc
      obtain ⟨y, hy, ho⟩ := forall₂_mem_right hls l' hl'
      have hyi : y.2 = i := (NodeId.test.inj ((ho c hcl).symm.trans he)).2
      have := hsorted.1 y.2 (List.mem_map_of_mem hy)
      omega
    · exact First.append (first_of_right (hne hj)) (first_flatten hij hsorted.2 hls)
        (Or.inl (hne hj))

end First

theorem phase_sorted (parentNames : List Str) (ctx : RunContext) (b : Bool) (ts : List Test) :
    ((phase parentNames ctx b ts).map Prod.snd).Pairwise (· < ·) := by
  have h : (ts.zipIdx.map Prod.snd).Pairwise (· < ·) := by
    rw [List.zipIdx_map_snd]
    exact List.pairwise_lt_range'
  exact h.sublist ((List.filter_sublist.trans List.filter_sublist).map Prod.snd)

/-! ## The order of a group -/

section Inside

variable {overlaps : Node → Prop} {pos : List Nat} {parentNames : List Str} {ctx : RunContext}
  {ts : List Test} {gs : List Group} {w : List OpCall} {n m : Node}

/-- Two tests of a group. -/
theorem first_tests (h : Completes (groupInside pos parentNames ctx ts gs) w ())
    (hov : ∀ n ∈ Group.testNodes pos parentNames ts, (overlaps n ↔
      ctx.isConcurrencyEnabled n.fixture.testCanRunConcurrently = true))
    (hn : n ∈ Group.testNodes pos parentNames ts) (hm : m ∈ Group.testNodes pos parentNames ts)
    (hb : Before overlaps n m) : First n.id m.id w := by
  obtain ⟨t₁, t₂, t₃, ls₂, ls₃, rfl, h₁, h₂, hi, h₃, rfl⟩ := completes_groupInside h
  have hon := hov n hn
  have hom := hov m hm
  obtain ⟨t, i, ht, rfl⟩ := Group.mem_testNodes.mp hn
  obtain ⟨u, j, hu, rfl⟩ := Group.mem_testNodes.mp hm
  have hphase : ∀ {b} {x : Test} {k}, ts[k]? = some x →
      ctx.isConcurrencyEnabled x.fixture.testCanRunConcurrently ≠ b →
        (x, k) ∉ phase parentNames ctx b ts := fun _ hb hx => hb (mem_phase.mp hx).2.2
  refine First.append (first_of_left (not_test_groups h₁ i)) ?_ (Or.inl (not_test_groups h₁ j))
  cases hb with
  | groups p k l hkl hi' hj => exact absurd (concat_prefix_inj hi' hj) (by omega)
  | groupTest p k l hi' hj =>
    cases hj
    exact absurd List.prefix_rfl (not_prefix_concat hi')
  | concurrent p k l hi' hj hyes hno =>
    refine first_append (not_in_phase h₂ hi hu (hphase hu fun he => hno (hom.mpr he)))
      (not_in_phase (n := 0) h₃ (.flatten ls₃) ht (hphase ht ?_))
    rw [hon.mp hyes]
    decide
  | sequential p k l hkl hi' hj hno hno' =>
    cases hi'
    cases hj
    refine First.append (first_of_left (not_in_phase h₂ hi ht (hphase ht fun he => hno (hon.mpr he))))
      (first_flatten hkl (phase_sorted parentNames ctx false ts) (h₃.imp fun _ _ => runTest_owned))
      (Or.inl (not_in_phase h₂ hi hu (hphase hu fun he => hno' (hom.mpr he))))

/-- Two nodes below a group. -/
theorem first_inside (h : Completes (groupInside pos parentNames ctx ts gs) w ())
    (hov : ∀ n ∈ Group.testNodes pos parentNames ts, (overlaps n ↔
      ctx.isConcurrencyEnabled n.fixture.testCanRunConcurrently = true))
    (hgs : ∀ {v}, Completes (runGroups pos 0 parentNames ctx gs) v () →
      ∀ n ∈ Group.nodesOf pos 0 parentNames gs, ∀ m ∈ Group.nodesOf pos 0 parentNames gs,
        Before overlaps n m → First n.id m.id v)
    (hn : n ∈ Group.nodesOf pos 0 parentNames gs ++ Group.testNodes pos parentNames ts)
    (hm : m ∈ Group.nodesOf pos 0 parentNames gs ++ Group.testNodes pos parentNames ts)
    (hb : Before overlaps n m) : First n.id m.id w := by
  have hall := completes_groupInside h
  obtain ⟨t₁, t₂, t₃, ls₂, ls₃, rfl, h₁, h₂, hi, h₃, rfl⟩ := hall
  rcases List.mem_append.mp hn with hn | hn
  · -- the tests do nothing of what is below a subgroup
    have hrest : ∀ c ∈ t₂ ++ ls₃.flatten, c.1.node ≠ n.id := fun c hc =>
      (List.mem_append.mp hc).elim (not_below_phase h₂ hi hn c)
        (not_below_phase (n := 0) h₃ (.flatten ls₃) hn c)
    rcases List.mem_append.mp hm with hm | hm
    · exact First.append (hgs h₁ n hn m hm hb) (first_of_left hrest) (Or.inr hrest)
    · obtain ⟨u, j, -, rfl⟩ := Group.mem_testNodes.mp hm
      exact first_append (not_test_groups h₁ j) hrest
  · rcases List.mem_append.mp hm with hm | hm
    · obtain ⟨t, i, -, rfl⟩ := Group.mem_testNodes.mp hn
      obtain ⟨k, -, hp, -⟩ := Group.nodesOf_spec pos 0 parentNames gs m hm
      obtain ⟨p, i', j', hi', hj'⟩ := hb.of_prefix ((List.prefix_append pos [k]).trans hp)
      cases hi'
      rw [hj'] at hp
      exact absurd List.prefix_rfl (not_prefix_concat hp)
    · exact first_tests h hov hn hm hb

end Inside

mutual

/-- **The order of a group**, where `overlaps` says which tests may overlap. -/
theorem first_runGroup {overlaps : Node → Prop} (pos : List Nat) (parentNames : List Str)
    (ctx : RunContext) : ∀ (g : Group) {w : List OpCall},
      Completes (runGroup pos parentNames ctx g) w () →
      (∀ n ∈ g.nodes pos parentNames, n.id.isTest = true → (overlaps n ↔
        ctx.concurrencyEnabled = true ∧ MayOverlap (g.nodes pos parentNames) n)) →
      ∀ n ∈ g.nodes pos parentNames, ∀ m ∈ g.nodes pos parentNames,
        Before overlaps n m → First n.id m.id w
  | .mk name f ts gs, w, h, hov => by
    obtain ⟨r, mid, down, rfl, hmid⟩ := completes_runGroup.mp h
    intro n hn m hm hb
    have hpos : ∀ n ∈ (Group.mk name f ts gs).nodes pos parentNames, pos <+: n.id.pos :=
      fun n hn => (Group.nodes_spec pos parentNames _ n hn).1
    rcases List.mem_cons.mp hn with rfl | hn
    · obtain ⟨p, i, j, hi, -⟩ := hb.of_prefix (hpos m hm)
      cases hi
    rcases List.mem_cons.mp hm with rfl | hm
    · cases hb.isTest_of_prefix (hpos n (List.mem_cons_of_mem _ hn))
    refine First.span ?_ (Group.ne_group_of_below hn) (Group.ne_group_of_below hm)
    obtain ⟨a, -, hmid⟩ | ⟨-, rfl⟩ := hmid
    · -- the group's own fixture is one of those that have to allow it
      have hbelow : ∀ n ∈ Group.nodesOf pos 0 (parentNames ++ [name]) gs ++
          Group.testNodes pos (parentNames ++ [name]) ts, n.id.isTest = true → (overlaps n ↔
            (ctx.updateConcurrencyEnabled f.testCanRunConcurrently).concurrencyEnabled = true ∧
              MayOverlap (Group.nodesOf pos 0 (parentNames ++ [name]) gs ++
                Group.testNodes pos (parentNames ++ [name]) ts) n) := by
        intro n hn ht
        rw [hov n (List.mem_cons_of_mem _ hn) ht, RunContext.updateConcurrencyEnabled,
          Bool.and_eq_true, and_assoc]
        refine and_congr_right fun _ => ⟨fun hmay => ?_, fun hmay => ⟨hmay.2.1, ?_⟩⟩
        · exact ⟨hmay.2 _ List.mem_cons_self (Group.encloses_below hn), hmay.1,
            fun p hp => hmay.2 p (List.mem_cons_of_mem _ hp)⟩
        · exact List.forall_mem_cons.mpr ⟨fun _ => hmay.1, hmay.2.2⟩
      refine first_inside hmid (fun n hn => ?_) (fun hv => first_runGroups pos 0 _ _ gs hv ?_) hn hm hb
      · obtain ⟨t, i, ht, rfl⟩ := Group.mem_testNodes.mp hn
        rw [hbelow _ (List.mem_append_right _ hn) rfl, RunContext.isConcurrencyEnabled,
          Bool.and_eq_true]
        refine and_congr_right fun _ => and_iff_left fun p hp he => ?_
        rcases List.mem_append.mp hp with hp | hp
        · exact absurd he (Group.not_encloses_testNode hp i)
        · obtain ⟨_, _, -, rfl⟩ := Group.mem_testNodes.mp hp
          exact absurd he (NodeId.not_encloses_test _ rfl _)
      · intro n hn ht
        rw [hbelow n (List.mem_append_left _ hn) ht, mayOverlap_append fun p hp => ?_]
        obtain ⟨_, _, -, rfl⟩ := Group.mem_testNodes.mp hp
        exact NodeId.not_encloses_test _ rfl _
    · exact .nil

theorem first_runGroups {overlaps : Node → Prop} (pos : List Nat) (j : Nat)
    (parentNames : List Str) (ctx : RunContext) : ∀ (gs : List Group) {w : List OpCall},
      Completes (runGroups pos j parentNames ctx gs) w () →
      (∀ n ∈ Group.nodesOf pos j parentNames gs, n.id.isTest = true → (overlaps n ↔
        ctx.concurrencyEnabled = true ∧ MayOverlap (Group.nodesOf pos j parentNames gs) n)) →
      ∀ n ∈ Group.nodesOf pos j parentNames gs, ∀ m ∈ Group.nodesOf pos j parentNames gs,
        Before overlaps n m → First n.id m.id w
  | [], w, h, hov => by simp [Group.nodesOf]
  | g :: gs, w, h, hov => by
    obtain ⟨t₁, t₂, rfl, h₁, h₂⟩ := completes_runGroups_cons.mp h
    have hhead : ∀ m ∈ Group.nodesOf pos (j + 1) parentNames gs, ∀ c ∈ t₁, c.1.node ≠ m.id :=
      fun m hm => not_in_head h₁ hm
    have hrest : ∀ n ∈ g.nodes (pos ++ [j]) parentNames, ∀ c ∈ t₂, c.1.node ≠ n.id :=
      fun n hn => not_in_rest h₂ hn
    intro n hn m hm hb
    rcases List.mem_append.mp hn with hn | hn
    · rcases List.mem_append.mp hm with hm | hm
      · refine First.append ?_ (first_of_left (hrest n hn)) (Or.inr (hrest n hn))
        split at h₁
        · refine first_runGroup (pos ++ [j]) _ _ g h₁ (fun n hn ht => ?_) n hn m hm hb
          rw [hov n (List.mem_append_left _ hn) ht]
          exact and_congr_right fun _ =>
            mayOverlap_append fun p hp => (Group.not_encloses_subgroups hn hp).2
        · rw [h₁]
          exact .nil
      · exact first_append (hhead m hm) (hrest n hn)
    · rcases List.mem_append.mp hm with hm | hm
      · obtain ⟨k, hk, hp, -⟩ := Group.nodesOf_spec pos (j + 1) parentNames gs n hn
        have hq := (Group.nodes_spec (pos ++ [j]) parentNames g m hm).1
        have := hb.lt_of_part (by omega) hp hq
        omega
      · refine First.append (first_of_left (hhead n hn))
          (first_runGroups pos (j + 1) _ _ gs h₂ (fun n hn ht => ?_) n hn m hm hb) (Or.inl (hhead m hm))
        rw [hov n (List.mem_append_right _ hn) ht]
        exact and_congr_right fun _ =>
          mayOverlap_append_right fun p hp => (Group.not_encloses_subgroups hp hn).1

end

/-! ## The order of a run -/

section Run

variable {G : FixtureGraph} {config : Config} {g : Group} {x y z : Sys} {t u : List Label}
  {n m : Node}

/-- The word of a complete run keeps to the order. -/
theorem RunWord.first {w : List OpCall} (hw : RunWord config g w) (hn : n ∈ g.nodes [] [])
    (hm : m ∈ g.nodes [] []) (hb : Before (MayOverlap (g.nodes [] [])) n m) :
    First n.id m.id w := by
  obtain rfl | h := hw
  · exact .nil
  · exact first_runGroup [] [] _ g h (fun n _ _ => (and_iff_right rfl).symm) n hn m hm hb

/-- What a task does, its node has spawned it for. -/
theorem exists_call (hx : run config g = some x) (h : Sys.Run G x t y) :
    ∀ l ∈ t, ∃ c ∈ calls t, c.1.node = l.node := by
  induction h with
  | refl => simp
  | @tail t y z l hrun hs ih =>
    intro l' hl'
    rcases List.mem_append.mp hl' with hl' | hl'
    · obtain ⟨c, hc, he⟩ := ih l' hl'
      exact ⟨c, by simp [hc], he⟩
    obtain rfl := Option.mem_toList.mp hl'
    cases hs with
    | @call _ _ _ _ c _ _ => exact ⟨c, by simp, rfl⟩
    | @act p s s' a ha =>
      by_contra hno
      have hidle : stage (calls t) a.node = .idle := stage_of_nil (proj_eq_nil fun c hc he =>
        hno ⟨c, by simp [hc], he⟩)
      obtain ⟨task, ht⟩ := exists_task (State.act_cases ha)
      have hfits := (sound_of_run hx hrun).held.task a.node
      rw [hidle] at hfits
      cases (hfits.eq_none rfl).symm.trans ht

/-- The next step is none of a node that comes before one that has begun. -/
theorem node_ne_of_begun (hx : run config g = some x) (h : Sys.Run G x t y) {l : Label}
    (hs : Sys.Step G y (some l) z) (hn : n ∈ g.nodes [] []) (hm : m ∈ g.nodes [] [])
    (hb : Before (MayOverlap (g.nodes [] [])) n m) (hbegun : ∃ l ∈ t, l.node = m.id) :
    l.node ≠ n.id := by
  intro hl
  obtain ⟨l', hl', hl'm⟩ := hbegun
  obtain ⟨c, hc, hcm⟩ := exists_call hx h l' hl'
  rw [hl'm] at hcm
  obtain ⟨w, hw, r, hr⟩ := run_prefix hx (h.tail hs)
  have hfirst := hw.first hn hm hb
  rw [← hr] at hfirst
  cases hs with
  | @call _ _ _ _ d _ _ =>
    have hcd := (List.pairwise_append.mp hfirst).1
    rw [Option.toList_some, calls_append, List.pairwise_append] at hcd
    exact hcd.2.2 c hc d (by simp) hcm hl
  | @act p s s' a ha =>
    -- the node has done all it does, so that it has no task
    have hcalls : calls (t ++ (some (Label.act a)).toList) = calls t := by simp
    rw [hcalls] at hr hfirst
    have hdone : proj n.id (calls t) = proj n.id w := by
      rw [← hr, proj_append, proj_eq_nil fun d hd => (List.pairwise_append.mp hfirst).2.2 c hc d hd hcm,
        List.append_nil]
    obtain ⟨task, ht⟩ := exists_task (State.act_cases ha)
    have hfits := (sound_of_run hx h).held.task n.id
    rw [← hl, Label.node] at hdone hfits
    refine absurd ((hfits.eq_none ?_).symm.trans ht) (by simp)
    rw [← Label.node, hl] at hdone ⊢
    rcases hw.stage_complete hn hdone with hidle | hclosed
    · rw [hidle]
      rfl
    · rw [hclosed]
      rfl

/-- **Every run keeps to the order**: as soon as a node has begun, the nodes before it do nothing
more, neither by themselves nor by their tasks. -/
theorem in_order (hx : run config g = some x) (h : Sys.Run G x t y) (hu : Sys.Run G y u z)
    (hn : n ∈ g.nodes [] []) (hm : m ∈ g.nodes [] [])
    (hb : Before (MayOverlap (g.nodes [] [])) n m) (hbegun : ∃ l ∈ t, l.node = m.id) :
    ∀ l ∈ u, l.node ≠ n.id := by
  induction hu with
  | refl => simp
  | @tail u y' z l hrun hs ih =>
    intro l' hl'
    rcases List.mem_append.mp hl' with hl' | hl'
    · exact ih l' hl'
    obtain rfl := Option.mem_toList.mp hl'
    obtain ⟨k, hk, hkm⟩ := hbegun
    exact node_ne_of_begun hx (h.trans hrun) hs hn hm hb ⟨k, List.mem_append_left _ hk, hkm⟩

end Run

/-- The second test has begun, and goes on. -/
theorem in_order_twoTests : ∃ x t y u z, run {} twoTests = some x ∧ Sys.Run noDependencies x t y ∧
    Sys.Run noDependencies y u z ∧ (∃ l ∈ u, l.node = .test [0] 1) ∧
      ∀ l ∈ u, l.node ≠ .test [0] 0 := by
  obtain ⟨x, t, y, u, z, hx, h, hu, hP⟩ := exists_runs_of_reachesThen noDependencies {} {} twoTests
    45 5 (fun t _ u _ => t.any (fun l => l.node == .test [0] 1) &&
      u.any fun l => l.node == .test [0] 1) (by decide +kernel)
  obtain ⟨hbegun, hgoes⟩ := Bool.and_eq_true_iff.mp hP
  have hmem : ∀ {v : List Label}, v.any (fun l => l.node == .test [0] 1) = true →
      ∃ l ∈ v, l.node = .test [0] 1 := fun hv => by simpa using hv
  refine ⟨x, t, y, u, z, hx, h, hu, hmem hgoes, in_order hx h hu
    (n := ⟨.test [0] 0, [['r'], ['a']], ['b'], { typeId := 2 }⟩)
    (m := ⟨.test [0] 1, [['r'], ['a']], ['c'], { typeId := 2 }⟩) (by decide) (by decide)
    (.sequential [0] 0 1 (by decide) rfl rfl ?_ ?_) (hmem hbegun)⟩ <;>
  · rintro ⟨⟨⟩, -⟩

end E2etest
