import E2etest.Once

/-!
# The assertions of `Statistics::record`

`Admits` is what `record` asserts, `record_eq_none_iff`. Every record the runner makes is admitted where
the nodes that do something are `Covered` by an included test, by path (`admits_runWord`). On a tree
whose names hold no `:` they are as soon as the filter restricts, or every group has a test at or
below its path, or there is no test at all (`covered_of_populated`).
-/

namespace E2etest

open Async Text Prog

/-- `Event::TestLaunched | Event::TestPassed | Event::TestFailed`. -/
def Event.isOfTest : Event → Bool
  | .testLaunched | .testPassed | .testFailed => true
  | _ => false

/-- What `record` asserts of an event of a run. -/
def Admits (included : Finset Str) (name : Str) (event : Event) : Prop :=
  if event.isOfTest then name ∈ included else ∃ p ∈ included, Under name p

theorem mem_iterIncluded {s : Statistics} {name p : Str} :
    p ∈ s.iterIncluded name ↔ p ∈ s.included ∧ Under name p := by
  simp [Statistics.iterIncluded, Under, startsWith]

theorem record_eq_none_iff {s : Statistics} {name : Str} {event : Event}
    (hd : event ≠ .testDefined) (hi : event ≠ .testIncluded) :
    s.record name event = none ↔ ¬ Admits s.included name event := by
  have hiter : s.iterIncluded name ≠ ∅ ↔ ∃ p ∈ s.included, Under name p := by
    simp only [← Finset.nonempty_iff_ne_empty, Finset.Nonempty, mem_iterIncluded]
  cases event <;> first | exact absurd rfl hd | exact absurd rfl hi | skip
  all_goals simp [Statistics.record, Admits, Event.isOfTest, ← hiter]

theorem isTest_of_isOfTest {m : Node} {r : Except Unit (Option Arc)} {body down : Except Unit Unit}
    {event : Event} (h : event ∈ nodeEvents m.kind r body down) (he : event.isOfTest = true) :
    m.id.isTest = true := by
  unfold Node.kind at h
  split at h
  · assumption
  · rcases r with e | _ | a <;> rcases down with e' | u <;>
      simp [nodeEvents, setupEvent, teardownEvent] at h <;>
      rcases h with rfl | rfl | rfl | rfl <;> cases he

/-! ## No assertion fails -/

/-- An included test is the node, or has the path of the node before it. -/
def Covered (g : Group) (included : Finset Str) (m : Node) : Prop :=
  ∃ n ∈ g.leaves, (m.id.isTest = true → n = m) ∧ m.names <+: n.names ∧ n.path ∈ included

/-- Every group has a test at or below its path. -/
def Group.Populated (g : Group) : Prop :=
  ∀ m ∈ g.nodes [] [], m.id.isTest = false → ∃ n ∈ g.leaves, m.names <+: n.names

instance (g : Group) : Decidable g.Populated :=
  inferInstanceAs (Decidable (∀ m ∈ g.nodes [] [], m.id.isTest = false →
    ∃ n ∈ g.leaves, m.names <+: n.names))

section Run

variable {config : Config} {g : Group} {x : Sys} {w : List OpCall}

/-- A test that does something is included. -/
theorem covered_of_isTest (hg : g.ColonFree) (hx : run config g = some x)
    (h : Completes (runGroup [] [] (config.context g) g) w ()) {m : Node}
    (hm : m ∈ g.nodes [] []) (hw : proj m.id w ≠ []) (ht : m.id.isTest = true) :
    Covered g x.state.statistics.included m := by
  have hleaf := Group.mem_leaves.mpr ⟨hm, ht⟩
  have hc := considers_of_proj h hm hw (ne_group_of_isTest ht)
  rw [Filter.considers_test _ ht] at hc
  exact ⟨m, hleaf, fun _ => rfl, List.prefix_rfl, (path_mem_included hg hx hleaf).mpr hc⟩

/-- Where some test is included, one stands below the root. -/
theorem covered_root (hg : g.ColonFree) (hx : run config g = some x)
    (hne : x.state.statistics.included ≠ ∅) :
    Covered g x.state.statistics.included (g.rootNode [] []) := by
  obtain ⟨p, hp⟩ := Finset.nonempty_iff_ne_empty.mpr hne
  obtain ⟨n, hn, -, rfl⟩ := (mem_included hg hx p).mp hp
  exact ⟨n, hn, fun h => Bool.noConfusion h,
    (Group.nodes_spec [] [] g n (Group.mem_leaves.mp hn).1).2.1, hp⟩

/-- A node that does something is covered, when the filter restricts, or every group has a test at or
below its path. -/
theorem covered_of_populated (hg : g.ColonFree) (hx : run config g = some x)
    (hcond : g.leaves = [] ∨ Restricts config.filters g ∨ g.Populated)
    (hne : x.state.statistics.included ≠ ∅)
    (h : Completes (runGroup [] [] (config.context g) g) w ()) {m : Node}
    (hm : m ∈ g.nodes [] []) (hw : proj m.id w ≠ []) :
    Covered g x.state.statistics.included m := by
  have hcond : Restricts config.filters g ∨ g.Populated := by
    refine hcond.resolve_left fun hno => hne ?_
    refine Finset.eq_empty_iff_forall_notMem.mpr fun p hp => ?_
    obtain ⟨n, hn, -⟩ := (mem_included hg hx p).mp hp
    rw [hno] at hn
    exact List.not_mem_nil hn
  cases ht : m.id.isTest with
  | true => exact covered_of_isTest hg hx h hm hw ht
  | false =>
    obtain rfl | ⟨hroot, -⟩ := Group.eq_or_encloses hm
    · exact covered_root hg hx hne
    · have hc := considers_of_proj h hm hw hroot
      rw [Filter.considers_group _ ht] at hc
      by_cases hr : Restricts config.filters g
      · obtain ⟨n, hn, hpre, hct⟩ :=
          exists_considerTest_below hg hr hm (Group.parents_ne_nil hm hroot) hc
        exact ⟨n, hn, fun h => by simp [ht] at h, hpre.trans (List.prefix_append _ _),
          (path_mem_included hg hx hn).mpr hct⟩
      · obtain ⟨n, hn, hpre⟩ := hcond.resolve_left hr m hm ht
        exact ⟨n, hn, fun h => by simp [ht] at h, hpre,
          (path_mem_included hg hx hn).mpr ((considerTest_iff hg hn).mpr (Or.inl hr))⟩

/-- Every record of a run word is admitted, where the nodes that do something are covered. -/
theorem admits_runWord {included : Finset Str}
    (h : Completes (runGroup [] [] (config.context g) g) w ())
    (hcov : ∀ m ∈ g.nodes [] [], proj m.id w ≠ [] → Covered g included m) {n : NodeId} {name : Str}
    {event : Event} (hc : recorded n name event ∈ w) : Admits included name event := by
  obtain ⟨m, hm, rfl⟩ := runGroup_nodes [] [] _ g h _ hc
  have hproj : recorded m.id name event ∈ proj m.id w := mem_proj.mpr ⟨hc, rfl⟩
  obtain ⟨k, hk, hself, hpre, hinc⟩ := hcov m hm (List.ne_nil_of_mem hproj)
  have hspan := (proj_runGroup [] [] _ g h m hm).resolve_left (List.ne_nil_of_mem hproj)
  obtain ⟨r, body, down, he⟩ := hspan.entries
  have hmem := mem_entries hproj
  rw [he, List.mem_map] at hmem
  obtain ⟨event', hevent, heq⟩ := hmem
  obtain ⟨rfl, rfl⟩ := EventEntry.mk.inj heq
  unfold Admits
  split
  · rename_i hof
    rwa [← hself (isTest_of_isOfTest hevent hof)]
  · exact ⟨k.path, hinc, under_of_prefix (by simp [Node.names]) hpre⟩

end Run

end E2etest
