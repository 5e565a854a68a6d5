import E2etest.Protocol
import Mathlib.Data.List.Destutter

/-!
# What becomes of the included tests

Each entry of the log accounts for some tests: the end of a test, or of its own setup, for the test
itself, a skip or a failure of a group's setup for every included test below the group's path
(`accounts`). `accounted_runGroup`: on a tree whose names hold no `:` and whose paths are pairwise
distinct, the entries of a completed run account for each included test once. The counters and name
lists of the statistics follow (`accounting`).

With a `:` in a name a test can stand below the path of a group it is not in, and is counted twice
(`colon_counted_twice`).
-/

namespace E2etest

open Async Text Prog

namespace Statistics

/-- The tests an entry accounts for. -/
def accounts (s : Statistics) (e : EventEntry) : List Str :=
  match e.event with
  | .testPassed | .testFailed | .setupSkipped .test | .setupFailed .test => [e.name]
  | .setupSkipped .group | .setupFailed .group => s.includedBelow e.name
  | _ => []

/-- The tests some entries account for. -/
def accounted (s : Statistics) (es : List EventEntry) : List Str := es.flatMap s.accounts

@[simp] theorem accounted_nil (s : Statistics) : s.accounted [] = [] := rfl

@[simp] theorem accounted_append (s : Statistics) (es es' : List EventEntry) :
    s.accounted (es ++ es') = s.accounted es ++ s.accounted es' := List.flatMap_append

/-- The tests the log accounts for are those the name lists are made of. -/
theorem accounted_perm_names (s : Statistics) : (s.accounted s.events).Perm
    ((s.entries (· == .testPassed)).map EventEntry.name ++
      ((s.entries (· == .testFailed)).map EventEntry.name ++
        (s.directAndBelowNames .setupSkipped ++ s.directAndBelowNames .setupFailed))) := by
  simp only [directAndBelowNames, entries]
  generalize s.events = es
  rw [List.perm_iff_count]
  intro p
  induction es with
  | nil => simp
  | cons e es ih =>
    obtain ⟨name, event⟩ := e
    simp only [accounted, List.flatMap_cons, List.count_append] at ih ⊢
    rw [ih]
    cases event with
    | setupSkipped task => cases task <;> simp [accounts, List.count_cons] <;> omega
    | setupFailed task => cases task <;> simp [accounts, List.count_cons] <;> omega
    | _ => simp [accounts, List.count_cons] <;> omega

/-- The counters add up the lengths of what the name lists are made of. -/
theorem directAndBelow_eq (s : Statistics) (event : Task → Event) :
    s.directAndBelow event = (s.directAndBelowNames event).length := by
  have hfoldl : ∀ (es : List EventEntry) (k : Nat),
      es.foldl (fun acc e => (s.iterIncluded e.name).card + acc) k =
        k + (es.flatMap fun e => s.includedBelow e.name).length := by
    intro es
    induction es with
    | nil => simp
    | cons e es ih =>
      intro k
      rw [List.foldl_cons, ih, List.flatMap_cons, List.length_append, includedBelow,
        Finset.length_sort]
      omega
  unfold directAndBelow directAndBelowNames
  rw [hfoldl, List.length_append, List.length_map, Nat.zero_add]

theorem sortDedup_perm {names : List Str} (h : names.Nodup) : (sortDedup names).Perm names := by
  have hsorted := List.pairwise_insertionSort (· ≤ ·) names
  have hperm := List.perm_insertionSort (· ≤ ·) names
  unfold sortDedup
  rw [hsorted.destutter_eq_dedup, List.dedup_eq_self.mpr (hperm.nodup_iff.mpr h)]
  exact hperm

end Statistics

/-! ## One node -/

section Words

variable {s : Statistics} {name : Str}

theorem accounted_openWord (n : NodeId) (kind : Task) (f : Fixture) (dt : Duration)
    (r : Except Unit (Option Arc)) : s.accounted (entries (openWord n name kind f dt r)) =
      match r, kind with
      | .ok (some _), _ => []
      | _, .test => [name]
      | _, .group => s.includedBelow name := by
  rw [entries_openWord]
  rcases r with e | _ | a <;> cases kind <;>
    simp [Statistics.accounted, Statistics.accounts, setupEvent]

theorem accounted_closeWord (n : NodeId) (f : Fixture) (dt : Duration)
    (r : Except Unit (Option Arc)) (down : Except Unit Unit) :
    s.accounted (entries (closeWord n name f dt r down)) = [] := by
  rw [entries_closeWord]
  rcases down with e | u <;> rfl

theorem accounted_testWord (n : NodeId) (a : Arc) (dt : Duration) (r : Except Unit Unit) :
    s.accounted (entries (testWord n name a dt r)) = [name] := by
  rw [entries_testWord]
  rcases r with e | u <;> rfl

/-- **A test accounts for itself**, once. -/
theorem accounted_runTest {n : NodeId} {groupName : Str} {ctx : RunContext} {t : Test}
    {w : List OpCall} (h : Completes (runTest n groupName ctx t) w ()) :
    s.accounted (entries w) = [groupName ++ sep ++ t.name] := by
  obtain ⟨r, mid, down, rfl, hmid⟩ := completes_runTest.mp h
  simp only [spanWord, entries_append, Statistics.accounted_append, accounted_openWord,
    accounted_closeWord, List.append_nil]
  obtain ⟨a, rfl, body, rfl⟩ | ⟨hne, rfl⟩ := hmid
  · exact accounted_testWord _ _ _ _
  · rcases r with e | _ | a
    · rfl
    · rfl
    · exact absurd rfl (hne a)

end Words

/-! ## What the tree has to be like -/

/-- The included tests are those of `nodes` that the filter lets through, and the paths of `nodes`
show which node is below which. -/
structure Covers (included : Finset Str) (filter : Filter) (nodes : List Node) : Prop where
  distinct : ∀ n ∈ nodes, ∀ m ∈ nodes, n.path = m.path → n = m
  included : ∀ p, p ∈ included ↔ ∃ n ∈ nodes, n.id.isTest = true ∧
    filter.considerTest n.parents n.name = true ∧ p = n.path
  under : ∀ m ∈ nodes, ∀ n ∈ nodes, m.id.isTest = false → n.id.isTest = true →
    (Under m.path n.path ↔ m.id.Encloses n.id)
  through : ∀ m ∈ nodes, ∀ n ∈ nodes, m.id.Encloses n.id → n.id.isTest = true →
    filter.considerTest n.parents n.name = true → m.parents ≠ [] →
      filter.considerGroup m.parents m.name = true

theorem covers {config : Config} {g : Group} {x : Sys} (hg : g.ColonFree) (hd : g.DistinctPaths)
    (hx : run config g = some x) : Covers x.state.statistics.included
      (.new config.filters g) (g.nodes [] []) := by
  have hinj : ∀ n ∈ g.nodes [] [], ∀ m ∈ g.nodes [] [], n.path = m.path → n = m :=
    fun n hn m hm => List.inj_on_of_nodup_map hd hn hm
  refine ⟨hinj, fun p => ?_, fun m hm n hn hmt hnt => ?_, fun m hm n hn he hnt hc hroot => ?_⟩
  · rw [mem_included hg hx]
    simp only [Group.mem_leaves, and_assoc]
  · rw [Node.path, Node.path, under_iff_prefix (by simp [Node.names]) (by simp [Node.names])
      (hg m hm) (hg n hn)]
    refine ⟨fun hpre => ?_, fun he =>
      (Group.encloses_names [] [] g m hm n hn he).trans (List.prefix_append _ _)⟩
    rcases List.prefix_concat_iff.mp hpre with heq | hpre
    · -- a group and a test have different paths
      have := hinj m hm n hn (congrArg join heq)
      rw [this, hnt] at hmt
      cases hmt
    · obtain ⟨k, hk, hnames, henc⟩ := Group.exists_enclosing [] [] g n hn m.names
        (Group.nodes_spec [] [] g m hm).2.1 hpre
      rwa [hinj k hk m hm (congrArg join hnames)] at henc
  · exact considerGroup_of_considerTest hg (Group.mem_leaves.mpr ⟨hn, hnt⟩) hm hroot
      (Group.encloses_names [] [] g m hm n hn he) hc

/-- Some of the nodes, with every test that is below one of them. -/
structure Part (nodes part : List Node) : Prop where
  subset : part ⊆ nodes
  closed : ∀ m ∈ part, ∀ n ∈ nodes, n.id.isTest = true → m.id.Encloses n.id → n ∈ part

theorem Part.left {nodes ns ms : List Node} (h : Part nodes (ns ++ ms))
    (hno : ∀ n ∈ ns, ∀ m ∈ ms, ¬ n.id.Encloses m.id) : Part nodes ns :=
  ⟨fun _ hn => h.subset (List.mem_append_left _ hn), fun n hn m hm ht he =>
    (List.mem_append.mp (h.closed n (List.mem_append_left _ hn) m hm ht he)).resolve_right
      fun hms => hno n hn m hms he⟩

theorem Part.right {nodes ns ms : List Node} (h : Part nodes (ns ++ ms))
    (hno : ∀ m ∈ ms, ∀ n ∈ ns, ¬ m.id.Encloses n.id) : Part nodes ms :=
  ⟨fun _ hm => h.subset (List.mem_append_right _ hm), fun m hm n hn ht he =>
    (List.mem_append.mp (h.closed m (List.mem_append_right _ hm) n hn ht he)).resolve_left
      fun hns => hno m hm n hns he⟩

/-- The paths of the tests that the filter lets through. -/
def selected (filter : Filter) (nodes : List Node) : List Str :=
  (nodes.filter fun n => n.id.isTest && filter.considerTest n.parents n.name).map Node.path

theorem selected_append (filter : Filter) (ns ms : List Node) :
    selected filter (ns ++ ms) = selected filter ns ++ selected filter ms := by
  unfold selected
  rw [List.filter_append, List.map_append]

theorem mem_selected {filter : Filter} {nodes : List Node} {p : Str} :
    p ∈ selected filter nodes ↔ ∃ n ∈ nodes, n.id.isTest = true ∧
      filter.considerTest n.parents n.name = true ∧ p = n.path := by
  simp only [selected, List.mem_map, List.mem_filter, Bool.and_eq_true, and_assoc,
    eq_comm (a := p)]

section Covers

variable {s : Statistics} {filter : Filter} {nodes part : List Node}

theorem Covers.nodup_selected (h : Covers s.included filter nodes) (hsub : part ⊆ nodes)
    (hnodup : (part.map Node.id).Nodup) : (selected filter part).Nodup :=
  (hnodup.of_map.filter _).map_on fun n hn m hm =>
    h.distinct n (hsub (List.mem_of_mem_filter hn)) m (hsub (List.mem_of_mem_filter hm))

/-- **The path of a group expands** to the included tests below it. -/
theorem Covers.expansion (h : Covers s.included filter nodes) (hpart : Part nodes part)
    (hnodup : (part.map Node.id).Nodup) {m : Node} (hm : m ∈ part) (hmt : m.id.isTest = false)
    (hbelow : ∀ n ∈ part, n.id.isTest = true → m.id.Encloses n.id) :
    (s.includedBelow m.path).Perm (selected filter part) := by
  unfold Statistics.includedBelow
  rw [List.perm_ext_iff_of_nodup (Finset.sort_nodup ..)
    (h.nodup_selected hpart.subset hnodup)]
  intro p
  rw [Finset.mem_sort, mem_iterIncluded, h.included, mem_selected]
  constructor
  · rintro ⟨⟨n, hn, ht, hc, rfl⟩, hunder⟩
    have henc := (h.under m (hpart.subset hm) n hn hmt ht).mp hunder
    exact ⟨n, hpart.closed m hm n hn ht henc, ht, hc, rfl⟩
  · rintro ⟨n, hn, ht, hc, rfl⟩
    have hn' := hpart.subset hn
    exact ⟨⟨n, hn', ht, hc, rfl⟩,
      (h.under m (hpart.subset hm) n hn' hmt ht).mpr (hbelow n hn ht)⟩

end Covers

/-! ## The tests a group accounts for -/

section Inside

variable {s : Statistics} {pos : List Nat} {parentNames : List Str} {ctx : RunContext}
  {ts : List Test} {gs : List Group} {w : List OpCall}

/-- The tests of a phase account for themselves. -/
theorem accounted_phase (hne : parentNames ≠ []) {b : Bool} {ls : List (List OpCall)} {n : Nat}
    (h : TestWords pos parentNames ctx b ts ls) (hi : Interleave n [] ls w) :
    (s.accounted (entries w)).Perm
      ((phase parentNames ctx b ts).map fun x => (testNode pos parentNames x).path) := by
  have hflat : s.accounted (entries ls.flatten) =
      (phase parentNames ctx b ts).map fun x => (testNode pos parentNames x).path := by
    clear hi
    unfold TestWords at h
    generalize phase parentNames ctx b ts = xs at h ⊢
    induction h with
    | nil => rfl
    | cons hl _ ih =>
      rw [List.flatten_cons, entries_append, Statistics.accounted_append, ih, accounted_runTest hl,
        List.map_cons, List.singleton_append]
      congr 1
      exact (join_concat hne _).symm
  rw [← hflat]
  exact (hi.perm.filterMap _).flatMap_right _

theorem phases_perm :
    ((phase parentNames ctx true ts).map (fun x => (testNode pos parentNames x).path) ++
      (phase parentNames ctx false ts).map fun x => (testNode pos parentNames x).path).Perm
        (selected ctx.filter (Group.testNodes pos parentNames ts)) := by
  have hsel : selected ctx.filter (Group.testNodes pos parentNames ts) =
      (ts.zipIdx.filter fun x => ctx.filter.considerTest parentNames x.1.name).map
        fun x => (testNode pos parentNames x).path := by
    unfold selected Group.testNodes
    rw [List.filter_map, List.map_map]
    rfl
  rw [hsel, ← List.map_append]
  refine List.Perm.map _ ?_
  have := List.filter_append_perm (fun x : Test × Nat =>
    ctx.isConcurrencyEnabled x.1.canRunConcurrently)
    (ts.zipIdx.filter fun x => ctx.filter.considerTest parentNames x.1.name)
  simpa [phase] using this

/-- The loops of a group, given the one over the subgroups. -/
theorem accounted_inside (hne : parentNames ≠ [])
    (h : Completes (groupInside pos parentNames ctx ts gs) w ())
    (hgs : ∀ {v}, Completes (runGroups pos 0 parentNames ctx gs) v () →
      (s.accounted (entries v)).Perm (selected ctx.filter (Group.nodesOf pos 0 parentNames gs))) :
    (s.accounted (entries w)).Perm (selected ctx.filter
      (Group.nodesOf pos 0 parentNames gs ++ Group.testNodes pos parentNames ts)) := by
  obtain ⟨t₁, t₂, t₃, ls₂, ls₃, rfl, h₁, h₂, hi, h₃, rfl⟩ := completes_groupInside h
  simp only [entries_append, Statistics.accounted_append, selected_append]
  refine (hgs h₁).append (.trans ?_ phases_perm)
  exact (accounted_phase hne h₂ hi).append (accounted_phase (n := 0) hne h₃ (.flatten ls₃))

end Inside

mutual

/-- **The entries of a group** account for each included test below it once. -/
theorem accounted_runGroup {s : Statistics} {nodes : List Node} (pos : List Nat)
    (parentNames : List Str) (ctx : RunContext) (hc : Covers s.included ctx.filter nodes) :
    ∀ (g : Group) {w : List OpCall}, Completes (runGroup pos parentNames ctx g) w () →
      Part nodes (g.nodes pos parentNames) →
      (s.accounted (entries w)).Perm (selected ctx.filter (g.nodes pos parentNames))
  | .mk name f ts gs, w, h => by
    intro hpart
    obtain ⟨r, mid, down, rfl, hmid⟩ := completes_runGroup.mp h
    simp only [spanWord, entries_append, Statistics.accounted_append, accounted_openWord,
      accounted_closeWord, List.append_nil]
    obtain ⟨a, rfl, hmid⟩ | ⟨hne, rfl⟩ := hmid
    · have hbelow : Part nodes (Group.nodesOf pos 0 (parentNames ++ [name]) gs ++
          Group.testNodes pos (parentNames ++ [name]) ts) := by
        refine Part.right (show Part nodes ([⟨.group pos, parentNames, name, f⟩] ++ _) from hpart)
          fun m hm n hn he => ?_
        obtain rfl := List.mem_singleton.mp hn
        exact NodeId.not_encloses_symm (Group.encloses_below hm) he
      have hgroups : Part nodes (Group.nodesOf pos 0 (parentNames ++ [name]) gs) := by
        refine hbelow.left fun n hn m hm he => ?_
        obtain ⟨t, i, -, rfl⟩ := Group.mem_testNodes.mp hm
        exact Group.not_encloses_testNode hn i he
      have hinside := accounted_inside (s := s) (by simp) hmid fun hv =>
        accounted_runGroups pos 0 (parentNames ++ [name])
          (ctx.updateConcurrencyEnabled f.testCanRunConcurrently) hc (by simp) gs hv hgroups
      exact hinside
    · have hexp := hc.expansion hpart (Group.nodes_ids_nodup pos parentNames _)
        (m := ⟨.group pos, parentNames, name, f⟩) List.mem_cons_self rfl fun n hn ht => by
          rcases List.mem_cons.mp hn with rfl | hn
          · cases ht
          · exact Group.encloses_below hn
      rcases r with e | _ | a
      · rwa [entries_nil, Statistics.accounted_nil, List.append_nil]
      · rwa [entries_nil, Statistics.accounted_nil, List.append_nil]
      · exact absurd rfl (hne a)

theorem accounted_runGroups {s : Statistics} {nodes : List Node} (pos : List Nat) (j : Nat)
    (parentNames : List Str) (ctx : RunContext) (hc : Covers s.included ctx.filter nodes)
    (hne : parentNames ≠ []) :
    ∀ (gs : List Group) {w : List OpCall}, Completes (runGroups pos j parentNames ctx gs) w () →
      Part nodes (Group.nodesOf pos j parentNames gs) →
      (s.accounted (entries w)).Perm (selected ctx.filter (Group.nodesOf pos j parentNames gs))
  | [], w, h => by
    obtain ⟨rfl, -⟩ := completes_pure.mp h
    exact fun _ => .refl _
  | g :: gs, w, h => by
    intro hpart
    obtain ⟨t₁, t₂, rfl, h₁, h₂⟩ := completes_runGroups_cons.mp h
    have hhead : Part nodes (g.nodes (pos ++ [j]) parentNames) :=
      hpart.left fun n hn m hm => (Group.not_encloses_subgroups hn hm).1
    have hrest : Part nodes (Group.nodesOf pos (j + 1) parentNames gs) :=
      hpart.right fun m hm n hn => (Group.not_encloses_subgroups hn hm).2
    simp only [entries_append, Statistics.accounted_append, Group.nodesOf, selected_append]
    refine .append ?_ (accounted_runGroups pos (j + 1) parentNames ctx hc hne gs h₂ hrest)
    split at h₁
    · exact accounted_runGroup (pos ++ [j]) parentNames ctx hc g h₁ hhead
    · rename_i hno
      subst h₁
      have hnil : selected ctx.filter (g.nodes (pos ++ [j]) parentNames) = [] := by
        refine List.eq_nil_iff_forall_not_mem.mpr fun p hp => ?_
        obtain ⟨n, hn, ht, hct, -⟩ := mem_selected.mp hp
        refine hno ?_
        obtain rfl | ⟨-, henc⟩ := Group.eq_or_encloses hn
        · cases ht
        · have hroot := hhead.subset (Group.rootNode_mem (pos ++ [j]) parentNames g)
          exact hc.through _ hroot n (hhead.subset hn) henc ht hct hne
      rw [hnil]
      exact .refl _

end

/-! ## The counters -/

/-- The operations of a run, sorted by the nodes that do them. -/
theorem perm_proj :
    ∀ {nodes : List Node} {w : List OpCall}, (nodes.map Node.id).Nodup →
      (∀ c ∈ w, ∃ m ∈ nodes, m.id = c.1.node) →
      w.Perm (nodes.map fun n => proj n.id w).flatten
  | [], w, _, hw => by
    have hnil : w = [] := List.eq_nil_iff_forall_not_mem.mpr fun c hc => by simpa using hw c hc
    exact hnil ▸ .refl _
  | n :: nodes, w, hnodup, hw => by
    rw [List.map_cons, List.nodup_cons] at hnodup
    have hrest := perm_proj (w := w.filter fun c => !decide (c.1.node = n.id)) hnodup.2 (by
      intro c hc
      obtain ⟨hc, hne⟩ := List.mem_filter.mp hc
      obtain ⟨m, hm, hid⟩ := hw c hc
      rcases List.mem_cons.mp hm with rfl | hm
      · simp [hid] at hne
      · exact ⟨m, hm, hid⟩)
    have hproj : ∀ m ∈ nodes, proj m.id (w.filter fun c => !decide (c.1.node = n.id)) =
        proj m.id w := by
      intro m hm
      unfold proj
      rw [List.filter_filter]
      refine List.filter_congr fun c _ => ?_
      by_cases hcm : c.1.node = m.id
      · have : m.id ≠ n.id := fun he => hnodup.1 (he ▸ List.mem_map_of_mem hm)
        simp [hcm, this]
      · simp [hcm]
    rw [List.map_congr_left hproj] at hrest
    rw [List.map_cons, List.flatten_cons]
    exact (List.filter_append_perm _ w).symm.trans (hrest.append_left _)

/-- Counts that agree at every node agree in the log. -/
theorem RunWord.countP_entries {config : Config} {g : Group} {w : List OpCall}
    (hw : RunWord config g w) {p q : Event → Bool}
    (h : ∀ kind r body down,
      (nodeEvents kind r body down).countP p = (nodeEvents kind r body down).countP q) :
    (entries w).countP (fun e => p e.event) = (entries w).countP fun e => q e.event := by
  have hperm := (perm_proj (Group.nodes_ids_nodup [] [] g) hw.nodes).filterMap E2etest.entryOf
  have hnode : ∀ n ∈ g.nodes [] [], (entries (E2etest.proj n.id w)).countP (fun e => p e.event) =
      (entries (E2etest.proj n.id w)).countP fun e => q e.event := by
    intro n hn
    rcases hw.proj hn with hnil | hspan
    · rw [hnil]
      rfl
    · obtain ⟨r, body, down, he⟩ := hspan.entries
      rw [he, List.countP_map, List.countP_map]
      exact h n.kind r body down
  unfold entries
  rw [hperm.countP_eq, hperm.countP_eq]
  clear hperm
  generalize g.nodes [] [] = nodes at hnode ⊢
  induction nodes with
  | nil => rfl
  | cons n nodes ih =>
    rw [List.forall_mem_cons] at hnode
    simp only [List.map_cons, List.flatten_cons, List.filterMap_append, List.countP_append]
    exact congrArg₂ (· + ·) hnode.1 (ih hnode.2)

theorem countP_or {A : Type*} {p q : A → Bool} (h : ∀ a, p a = true → q a = false) (l : List A) :
    l.countP (fun a => p a || q a) = l.countP p + l.countP q := by
  induction l with
  | nil => rfl
  | cons a l ih =>
    simp only [List.countP_cons, ih]
    cases hp : p a with
    | true =>
      simp [h a hp]
      omega
    | false => cases hq : q a <;> simp [Nat.add_assoc]

/-- What the statistics of a completed run say of the included tests. -/
structure Accounting (s : Statistics) : Prop where
  /-- Each included test passed, or failed, or was skipped, or its fixture failed, once. -/
  partition : ((s.entries (· == .testPassed)).map EventEntry.name ++
    ((s.entries (· == .testFailed)).map EventEntry.name ++
      (s.directAndBelowNames .setupSkipped ++ s.directAndBelowNames .setupFailed))).Perm
        (s.included.sort (· ≤ ·))
  included : s.testsIncluded =
    s.testsPassed + s.testsFailed + s.testsSkipped + s.testsSkippedByFixtureErr
  launched : s.testsLaunched = s.testsPassed + s.testsFailed
  setups : s.setupsLaunched = s.setupsPassed + s.setupsSkipped + s.setupsFailed
  balanced : s.setupsLaunched = s.teardownsLaunched
  teardowns : s.teardownsLaunched = s.teardownsPassed + s.teardownsFailed
  passedNames : s.testsPassedNames.length = s.testsPassed
  skippedNames : s.testsSkippedNames.length = s.testsSkipped
  skippedByFixtureErrNames : s.testsSkippedByFixtureErrNames.length = s.testsSkippedByFixtureErr
  passed_skipped : s.testsPassedNames.Disjoint s.testsSkippedNames
  passed_skippedByFixtureErr : s.testsPassedNames.Disjoint s.testsSkippedByFixtureErrNames
  skipped_skippedByFixtureErr : s.testsSkippedNames.Disjoint s.testsSkippedByFixtureErrNames
  /-- A success passed or skipped every included test. -/
  success : s.isSuccess = true → s.testsFailed = 0 ∧ s.testsSkippedByFixtureErr = 0 ∧
    s.testsIncluded = s.testsPassed + s.testsSkipped

/-- The setup of a node was skipped. -/
def Event.isSetupSkipped : Event → Bool
  | .setupSkipped _ => true
  | _ => false

/-- The setup of a node failed. -/
def Event.isSetupFailed : Event → Bool
  | .setupFailed _ => true
  | _ => false

/-- What holds of the events of each phase holds of the events of a node. -/
theorem nodeEvents_countP {p q : Event → Bool} {kind : Task} {r : Except Unit (Option Arc)}
    {body down : Except Unit Unit}
    (hsetup : [.setupLaunched, setupEvent kind r].countP p =
      [.setupLaunched, setupEvent kind r].countP q)
    (htest : [.testLaunched, testEvent body].countP p = [.testLaunched, testEvent body].countP q)
    (hdown : [.teardownLaunched, teardownEvent down].countP p =
      [.teardownLaunched, teardownEvent down].countP q) :
    (nodeEvents kind r body down).countP p = (nodeEvents kind r body down).countP q := by
  simp only [nodeEvents, List.countP_append, hsetup, hdown]
  split
  · rw [htest]
  · rfl

section Phases

variable (kind : Task) (r : Except Unit (Option Arc)) (body down : Except Unit Unit)

/-- A test that begins passes or fails. -/
theorem nodeEvents_tests : (nodeEvents kind r body down).countP (· == .testLaunched) =
    (nodeEvents kind r body down).countP fun e => e == .testPassed || e == .testFailed := by
  refine nodeEvents_countP ?_ ?_ ?_
  · rcases r with e | _ | a <;> rfl
  · cases body <;> rfl
  · cases down <;> rfl

/-- A setup that begins passes, is skipped, or fails. -/
theorem nodeEvents_setups : (nodeEvents kind r body down).countP (· == .setupLaunched) =
    (nodeEvents kind r body down).countP fun e =>
      (e == .setupPassed || e.isSetupSkipped) || e.isSetupFailed := by
  refine nodeEvents_countP ?_ ?_ ?_
  · rcases r with e | _ | a <;> rfl
  · cases body <;> rfl
  · cases down <;> rfl

/-- Who is set up is torn down. -/
theorem nodeEvents_balanced : (nodeEvents kind r body down).countP (· == .setupLaunched) =
    (nodeEvents kind r body down).countP (· == .teardownLaunched) := by
  rcases r with e | _ | a <;> cases kind <;> cases body <;> cases down <;> rfl

/-- A teardown that begins passes or fails. -/
theorem nodeEvents_teardowns : (nodeEvents kind r body down).countP (· == .teardownLaunched) =
    (nodeEvents kind r body down).countP fun e => e == .teardownPassed || e == .teardownFailed := by
  refine nodeEvents_countP ?_ ?_ ?_
  · rcases r with e | _ | a <;> rfl
  · cases body <;> rfl
  · cases down <;> rfl

end Phases

section Counters

variable {config : Config} {g : Group} {w : List OpCall} {s : Statistics}

theorem RunWord.launched (hw : RunWord config g w) (hs : s.events = entries w) :
    s.testsLaunched = s.testsPassed + s.testsFailed := by
  simp only [Statistics.testsLaunched, Statistics.testsPassed, Statistics.testsFailed,
    Statistics.entries, ← List.countP_eq_length_filter, hs]
  rw [← countP_or (by simp +contextual)]
  exact hw.countP_entries nodeEvents_tests

theorem RunWord.setups (hw : RunWord config g w) (hs : s.events = entries w) :
    s.setupsLaunched = s.setupsPassed + s.setupsSkipped + s.setupsFailed := by
  simp only [Statistics.setupsLaunched, Statistics.setupsPassed, Statistics.setupsSkipped,
    Statistics.setupsFailed, Statistics.entries, ← List.countP_eq_length_filter, hs]
  have hone : ∀ e : EventEntry, (e.event == .setupPassed) = true → e.event.isSetupSkipped = false := by
    rintro ⟨name, event⟩ h
    cases event <;> first | rfl | cases h
  have htwo : ∀ e : EventEntry, (e.event == .setupPassed || e.event.isSetupSkipped) = true →
      e.event.isSetupFailed = false := by
    rintro ⟨name, event⟩ h
    cases event <;> first | rfl | cases h
  refine (hw.countP_entries nodeEvents_setups).trans ?_
  rw [countP_or htwo, countP_or hone]
  rfl

theorem RunWord.balanced (hw : RunWord config g w) (hs : s.events = entries w) :
    s.setupsLaunched = s.teardownsLaunched := by
  simp only [Statistics.setupsLaunched, Statistics.teardownsLaunched, Statistics.entries,
    ← List.countP_eq_length_filter, hs]
  exact hw.countP_entries nodeEvents_balanced

theorem RunWord.teardowns (hw : RunWord config g w) (hs : s.events = entries w) :
    s.teardownsLaunched = s.teardownsPassed + s.teardownsFailed := by
  simp only [Statistics.teardownsLaunched, Statistics.teardownsPassed,
    Statistics.teardownsFailed, Statistics.entries, ← List.countP_eq_length_filter, hs]
  rw [← countP_or (by simp +contextual)]
  exact hw.countP_entries nodeEvents_teardowns

end Counters

/-- A success has no entry of a failure. -/
theorem entries_of_isSuccess {s : Statistics} (h : s.isSuccess = true) {p : Event → Bool}
    (hp : ∀ e : EventEntry, p e.event = true → e.isFailed = true) : s.entries p = [] := by
  simp only [Statistics.isSuccess, Bool.and_eq_true, Bool.not_eq_true', List.any_eq_false] at h
  unfold Statistics.entries
  rw [List.filter_eq_nil_iff]
  exact fun e he hpe => h.2 e he (hp e hpe)

section Run

variable {G : FixtureGraph} {config : Config} {g : Group} {x : Sys} {t : List Label} {s : State}

/-- The log of a completed run accounts for each included test once. -/
theorem accounted_run (hg : g.ColonFree) (hd : g.DistinctPaths) (hx : run config g = some x)
    (h : Sys.Completes G x t s) :
    (s.statistics.accounted s.statistics.events).Perm (s.statistics.included.sort (· ≤ ·)) := by
  obtain ⟨hincluded, hlog⟩ := run_statistics hx h
  have hcovers := covers hg hd hx
  rw [← hincluded] at hcovers
  obtain ⟨he, -⟩ := Sys.run_split h
  obtain ⟨hempty, hp⟩ | ⟨-, hp⟩ := (run_spec hx).2.2.2 <;> rw [hp] at he
  · rw [hlog, (exec_pure he).1, hincluded, hempty, Finset.sort_empty]
    exact .refl _
  · rw [hlog]
    refine (accounted_runGroup [] [] (config.context g) hcovers g he
      ⟨List.Subset.refl _, fun m _ n hn _ _ => hn⟩).trans ?_
    refine (List.perm_ext_iff_of_nodup (hcovers.nodup_selected (List.Subset.refl _)
      (Group.nodes_ids_nodup [] [] g)) (Finset.sort_nodup ..)).mpr fun p => ?_
    rw [Finset.mem_sort, hcovers.included, mem_selected]

/-- **The included tests are accounted for**, in every completed run on a tree whose names hold no
`:` and whose paths are pairwise distinct. -/
theorem accounting (hg : g.ColonFree) (hd : g.DistinctPaths) (hx : run config g = some x)
    (h : Sys.Completes G x t s) : Accounting s.statistics := by
  have hw := completes_runWord hx h
  have hlog := (run_statistics hx h).2
  have hnames := s.statistics.accounted_perm_names.symm.trans (accounted_run hg hd hx h)
  have hnodup := hnames.nodup_iff.mpr (Finset.sort_nodup ..)
  obtain ⟨hp, hrest, hpr⟩ := List.nodup_append'.mp hnodup
  obtain ⟨-, hrest, -⟩ := List.nodup_append'.mp hrest
  obtain ⟨hs, he, hse⟩ := List.nodup_append'.mp hrest
  have hpp := Statistics.sortDedup_perm hp
  have hps := Statistics.sortDedup_perm hs
  have hpe := Statistics.sortDedup_perm he
  have hincluded : s.statistics.testsIncluded = s.statistics.testsPassed +
      s.statistics.testsFailed + s.statistics.testsSkipped +
        s.statistics.testsSkippedByFixtureErr := by
    have hlen := hnames.length_eq
    simp only [List.length_append, List.length_map, Finset.length_sort,
      ← Statistics.directAndBelow_eq] at hlen
    simp only [Statistics.testsIncluded, Statistics.testsPassed, Statistics.testsFailed,
      Statistics.testsSkipped, Statistics.testsSkippedByFixtureErr]
    omega
  refine {
    partition := hnames
    included := hincluded
    launched := hw.launched hlog
    setups := hw.setups hlog
    balanced := hw.balanced hlog
    teardowns := hw.teardowns hlog
    passedNames := ?_
    skippedNames := ?_
    skippedByFixtureErrNames := ?_
    passed_skipped := ?_
    passed_skippedByFixtureErr := ?_
    skipped_skippedByFixtureErr := ?_
    success := fun hok => ?_ }
  · unfold Statistics.testsPassedNames
    rw [hpp.length_eq, List.length_map, Statistics.testsPassed]
  · rw [Statistics.testsSkippedNames, hps.length_eq, Statistics.testsSkipped,
      Statistics.directAndBelow_eq]
  · rw [Statistics.testsSkippedByFixtureErrNames, hpe.length_eq,
      Statistics.testsSkippedByFixtureErr, Statistics.directAndBelow_eq]
  · intro p hpassed hskipped
    exact hpr (hpp.subset hpassed)
      (List.mem_append_right _ (List.mem_append_left _ (hps.subset hskipped)))
  · intro p hpassed herr
    exact hpr (hpp.subset hpassed)
      (List.mem_append_right _ (List.mem_append_right _ (hpe.subset herr)))
  · intro p hskipped herr
    exact hse (hps.subset hskipped) (hpe.subset herr)
  · have hfailed : s.statistics.testsFailed = 0 := by
      unfold Statistics.testsFailed
      rw [entries_of_isSuccess hok]
      · rfl
      · rintro ⟨name, event⟩ h
        cases event <;> first | rfl | cases h
    have herr : s.statistics.testsSkippedByFixtureErr = 0 := by
      have hnil : ∀ kind, s.statistics.entries (· == .setupFailed kind) = [] := by
        refine fun kind => entries_of_isSuccess hok ?_
        rintro ⟨name, event⟩ h
        cases event <;> first | rfl | cases h
      unfold Statistics.testsSkippedByFixtureErr Statistics.directAndBelow
      rw [hnil, hnil]
      rfl
    exact ⟨hfailed, herr, by omega⟩

end Run

/-- A root group `r` with tests `x` and `y` and a subgroup `a` that has a test `z`. -/
def threeTests : Group :=
  .mk ['r'] { typeId := 0 }
    [{ name := ['x'], fixture := { typeId := 1 } }, { name := ['y'], fixture := { typeId := 2 } }]
    [.mk ['a'] { typeId := 3 } [{ name := ['z'], fixture := { typeId := 4 } }] []]

/-- A run in which a test fails, another one is skipped, and a third passes. -/
theorem accounting_threeTests : ∃ x t s, run {} threeTests = some x ∧
    Sys.Completes noDependencies x t s ∧ Accounting s.statistics := by
  obtain ⟨x, hx, h⟩ := exists_completes_of_runsToEnd noDependencies {
      script := fun n => if n = .group [0] then .skip else .done []
      body := fun n => if n = .test [] 0 then .error () else .ok () }
    {} threeTests 200 (by decide +kernel)
  exact ⟨x, _, _, hx, h, accounting (by decide) (by decide) hx h⟩

/-- A root group `r` with a test `a::b` and a subgroup `a` that has a test `x`. -/
def colonTest : Group :=
  .mk ['r'] { typeId := 0 } [{ name := ['a', ':', ':', 'b'], fixture := { typeId := 1 } }]
    [.mk ['a'] { typeId := 2 } [{ name := ['x'], fixture := { typeId := 3 } }] []]

/-- **A test with a colon in its name is counted twice**: it passes, and its path is below that of
the group `a`, which is skipped. -/
theorem colon_counted_twice : colonTest.DistinctPaths ∧ ∃ x t s, run {} colonTest = some x ∧
    Sys.Completes noDependencies x t s ∧ s.statistics.testsIncluded = 2 ∧
      s.statistics.testsPassed = 1 ∧ s.statistics.testsSkipped = 2 ∧ ¬ Accounting s.statistics := by
  refine ⟨by decide, ?_⟩
  obtain ⟨x, t, s, hx, h, hs⟩ := exists_completes_of_endsWith noDependencies
    { script := fun n => if n = .group [0] then .skip else .done [] } {} colonTest 200
    (fun _ s => s.statistics.testsIncluded = 2 ∧ s.statistics.testsPassed = 1 ∧
      s.statistics.testsSkipped = 2) (by decide +kernel)
  obtain ⟨hincluded, hpassed, hskipped⟩ := of_decide_eq_true hs
  refine ⟨x, t, s, hx, h, hincluded, hpassed, hskipped, fun hacc => ?_⟩
  have := hacc.included
  omega

end E2etest
