import E2etest.Accounting
import E2etest.FilterForms

/-!
# Counting tests, counting names

`defined` and `included` are sets of paths, `events` is a list. So `tests_defined` and
`tests_included` count names, and `tests_launched` counts tests.

* `testsDefined_eq_iff`, `testsIncluded_eq_iff`: a set of names has as many elements as there are
  tests just when their paths are pairwise distinct.
* `launchedNames_subperm`, `testsLaunched_le`: the launches of a run are those of different tests that
  the filter lets through.
* `counts_tests_iff`: all three counts count tests if and only if no two tests have the same path.
-/

namespace E2etest

open Async Text Prog

/-! ## Launches -/

namespace Statistics

/-- The names of the tests launched, in order. -/
def launchedNames (es : List EventEntry) : List Str :=
  (es.filter fun e => e.event == .testLaunched).map EventEntry.name

theorem launchedNames_append (es es' : List EventEntry) :
    launchedNames (es ++ es') = launchedNames es ++ launchedNames es' := by
  unfold launchedNames
  rw [List.filter_append, List.map_append]

theorem testsLaunched_eq (s : Statistics) : s.testsLaunched = (launchedNames s.events).length :=
  (List.length_map _).symm

/-- Only included names are launched. -/
def LaunchedIncluded (s : Statistics) : Prop :=
  ∀ e ∈ s.events, e.event = .testLaunched → e.name ∈ s.included

theorem LaunchedIncluded.record {s s' : Statistics} {name : Str} {event : Event}
    (h : s.LaunchedIncluded) (hr : s.record name event = some s') : s'.LaunchedIncluded := by
  by_cases hd : event = .testDefined
  · subst hd
    obtain rfl := Option.some.inj hr
    exact h
  by_cases hi : event = .testIncluded
  · subst hi
    obtain ⟨-, he⟩ := Option.ite_none_right_eq_some.mp hr
    obtain rfl := Option.some.inj he
    exact fun e he hl => Finset.mem_insert_of_mem (h e he hl)
  obtain rfl := record_cases hd hi hr
  intro e he hl
  rcases List.mem_append.mp he with he | he
  · exact h e he hl
  · obtain rfl := List.mem_singleton.mp he
    obtain rfl : event = .testLaunched := hl
    exact (Option.ite_none_right_eq_some.mp hr).1

end Statistics

section Launches

variable {G : FixtureGraph} {config : Config} {g : Group} {x y : Sys} {t : List Label}

theorem launchedIncluded_of_run (hx : run config g = some x) (h : Sys.Run G x t y) :
    y.state.statistics.LaunchedIncluded := by
  induction h with
  | refl =>
    intro e he
    rw [(run_spec hx).1] at he
    cases he
  | tail _ hs ih =>
    cases hs with
    | schedule _ => exact ih
    | act ha =>
      rw [State.act_statistics ha]
      exact ih
    | call _ hc =>
      cases State.call_cases hc with
      | record hr => exact ih.record hr
      | _ => exact ih

/-- A node launches nothing, or the test it is. -/
theorem IsSpan.launchedNames {m : Node} {dt : Duration} {w : List OpCall} (h : IsSpan m dt w) :
    Statistics.launchedNames (E2etest.entries w) = [] ∨
      m.id.isTest = true ∧ Statistics.launchedNames (E2etest.entries w) = [m.path] := by
  obtain ⟨r, body, down, he⟩ := h.entries
  rw [he]
  unfold Node.kind
  split
  · rename_i ht
    rcases r with e | _ | a
    · rcases down with e' | u <;> exact Or.inl rfl
    · rcases down with e' | u <;> exact Or.inl rfl
    · rcases body with e' | u <;> rcases down with e'' | u' <;> exact Or.inr ⟨ht, rfl⟩
  · rcases r with e | _ | a <;> rcases down with e' | u <;> exact Or.inl rfl

/-- **The launches of a complete run** are those of different tests. -/
theorem RunWord.launchedNames_subperm {w : List OpCall} (hw : RunWord config g w) :
    (Statistics.launchedNames (E2etest.entries w)).Subperm (g.leaves.map Node.path) := by
  have hperm := (perm_proj (Group.nodes_ids_nodup [] [] g) hw.nodes).filterMap E2etest.entryOf
  refine ⟨_, (hperm.filter _).map EventEntry.name |>.symm, ?_⟩
  have hnode : ∀ n ∈ g.nodes [] [], E2etest.proj n.id w = [] ∨
      IsSpan n config.defaultTimeout (E2etest.proj n.id w) := fun n hn => hw.proj hn
  clear hperm
  unfold Group.leaves
  generalize g.nodes [] [] = nodes at hnode ⊢
  change (Statistics.launchedNames (E2etest.entries
    (nodes.map fun n => E2etest.proj n.id w).flatten)).Sublist _
  induction nodes with
  | nil => exact .slnil
  | cons n nodes ih =>
    rw [List.forall_mem_cons] at hnode
    have hrest := ih hnode.2
    rw [List.map_cons, List.flatten_cons, entries_append, Statistics.launchedNames_append,
      List.filter_cons]
    have hnil : Statistics.launchedNames (E2etest.entries (E2etest.proj n.id w)) = [] ∨
        n.id.isTest = true ∧
          Statistics.launchedNames (E2etest.entries (E2etest.proj n.id w)) = [n.path] := by
      rcases hnode.1 with hnil | hspan
      · rw [hnil]
        exact Or.inl rfl
      · exact hspan.launchedNames
    obtain hnil | ⟨ht, hone⟩ := hnil
    · rw [hnil, List.nil_append]
      split
      · exact hrest.cons _
      · exact hrest
    · rw [hone, if_pos ht]
      exact hrest.cons_cons _

end Launches

/-! ## The counts -/

/-- The tests that the filter lets through. -/
def selectedLeaves (config : Config) (g : Group) : List Node :=
  g.leaves.filter fun n => (Filter.new config.filters g).considerTest n.parents n.name

/-- A list has as many elements as different ones just when they are pairwise distinct. -/
theorem card_toFinset_eq_length_iff {α : Type} [DecidableEq α] {l : List α} :
    l.toFinset.card = l.length ↔ l.Nodup := by
  rw [← Multiset.coe_card, ← Multiset.coe_nodup]
  exact Multiset.toFinset_card_eq_card_iff_nodup

section Counts

variable {G : FixtureGraph} {config : Config} {g : Group} {x y : Sys} {t : List Label}

/-- **The names defined** are as many as the tests just when no two tests have the same path. -/
theorem testsDefined_eq_iff (hx : run config g = some x) (h : Sys.Run G x t y) :
    y.state.statistics.testsDefined = g.leaves.length ↔ (g.leaves.map Node.path).Nodup := by
  have hdefined : y.state.statistics.defined = (g.leaves.map Node.path).toFinset := by
    refine Finset.ext fun p => ?_
    rw [statistics_of_run hx h, mem_defined_iff hx, Group.testNames_eq_leaves, List.mem_toFinset]
    simp only [List.mem_map, exists_exists_and_eq_and]
    refine exists_congr fun n => and_congr_right fun hn => ?_
    rw [Group.leaf_path hn, eq_comm]
  unfold Statistics.testsDefined
  rw [hdefined, ← card_toFinset_eq_length_iff, List.length_map]

/-- **The names included** are as many as the tests the filter lets through just when no two of these
have the same path. -/
theorem testsIncluded_eq_iff (hg : g.ColonFree) (hx : run config g = some x)
    (h : Sys.Run G x t y) : y.state.statistics.testsIncluded = (selectedLeaves config g).length ↔
      ((selectedLeaves config g).map Node.path).Nodup := by
  have hincluded : y.state.statistics.included =
      ((selectedLeaves config g).map Node.path).toFinset := by
    refine Finset.ext fun p => ?_
    rw [statistics_of_run hx h, mem_included hg hx, List.mem_toFinset]
    simp only [selectedLeaves, List.mem_map, List.mem_filter, and_assoc, eq_comm (a := p)]
  unfold Statistics.testsIncluded
  rw [hincluded, ← card_toFinset_eq_length_iff, List.length_map]

/-- **The launches** are at most the tests the filter lets through. -/
theorem testsLaunched_le (hg : g.ColonFree) (hx : run config g = some x) (h : Sys.Run G x t y) :
    y.state.statistics.testsLaunched ≤ (selectedLeaves config g).length := by
  obtain ⟨w, hw, hpre⟩ := run_prefix hx h
  obtain ⟨hincluded, hevents⟩ := run_statistics hx h
  -- the launches so far are among those of a complete run, and they are of included names
  have hsub : (Statistics.launchedNames y.state.statistics.events).Subperm
      (g.leaves.map Node.path) := by
    obtain ⟨v, rfl⟩ := hpre
    refine List.Subperm.trans (List.Sublist.subperm ?_) hw.launchedNames_subperm
    rw [hevents, entries_append, Statistics.launchedNames_append]
    exact List.sublist_append_left _ _
  have hmem : ∀ p ∈ Statistics.launchedNames y.state.statistics.events,
      p ∈ x.state.statistics.included := by
    intro p hp
    obtain ⟨e, he, rfl⟩ := List.mem_map.mp hp
    obtain ⟨he, hl⟩ := List.mem_filter.mp he
    rw [← hincluded]
    exact launchedIncluded_of_run hx h e he (eq_of_beq hl)
  have hfilter := hsub.filter fun p => decide (p ∈ x.state.statistics.included)
  rw [List.filter_eq_self.mpr fun p hp => decide_eq_true (hmem p hp), List.filter_map] at hfilter
  rw [Statistics.testsLaunched_eq]
  refine hfilter.length_le.trans (le_of_eq ?_)
  rw [List.length_map, selectedLeaves]
  congr 1
  refine List.filter_congr fun n hn => ?_
  rw [Function.comp_apply, Bool.eq_iff_iff, decide_eq_true_iff, path_mem_included hg hx hn]

/-- The counts are those of the tests. -/
structure CountsTests (config : Config) (g : Group) (s : Statistics) : Prop where
  defined : s.testsDefined = g.leaves.length
  included : s.testsIncluded = (selectedLeaves config g).length
  launched : s.testsLaunched ≤ s.testsIncluded

/-- **The counts count tests**, at any point of any run, if and only if no two tests of the tree have
the same path. -/
theorem counts_tests_iff (hg : g.ColonFree) (hx : run config g = some x) (h : Sys.Run G x t y) :
    CountsTests config g y.state.statistics ↔ (g.leaves.map Node.path).Nodup := by
  constructor
  · intro hcounts
    exact (testsDefined_eq_iff hx h).mp hcounts.defined
  · intro hdistinct
    have hselected : ((selectedLeaves config g).map Node.path).Nodup :=
      hdistinct.sublist (List.filter_sublist.map Node.path)
    have hincluded := (testsIncluded_eq_iff hg hx h).mpr hselected
    refine ⟨(testsDefined_eq_iff hx h).mpr hdistinct, hincluded, ?_⟩
    rw [hincluded]
    exact testsLaunched_le hg hx h

end Counts

/-- The counts of a run in which a test fails. -/
theorem counts_tests_threeTests : ∃ x t s, run {} threeTests = some x ∧
    Sys.Completes noDependencies x t s ∧ CountsTests {} threeTests s.statistics := by
  obtain ⟨x, hx, h⟩ := exists_completes_of_runsToEnd noDependencies
    { body := fun n => if n = .test [] 0 then .error () else .ok () } {} threeTests 200
    (by decide +kernel)
  exact ⟨x, _, _, hx, h, (counts_tests_iff (by decide) hx h).mpr (by decide)⟩

/-- Two modules declare a test `x` in the same group. -/
def twiceDeclared : GroupDecl :=
  .mk ['r'] (.listed 0 []) [⟨['x'], .listed 1 [{ typeId := 3 }], none⟩,
    ⟨['x'], .listed 2 [{ typeId := 3 }], none⟩] []

/-- **Of two tests with one name, one is lost** in the totals, and both are launched. -/
theorem counts_names_twiceDeclared : twiceDeclared.group.leaves.length = 2 ∧
    ∃ x t s, run {} twiceDeclared.group = some x ∧ Sys.Completes noDependencies x t s ∧
      s.statistics.testsDefined = 1 ∧ s.statistics.testsIncluded = 1 ∧
      s.statistics.testsLaunched = 2 := by
  refine ⟨by decide, ?_⟩
  obtain ⟨x, t, s, hx, h, hs⟩ := exists_completes_of_endsWith noDependencies {} {}
    twiceDeclared.group 200 (fun _ s => s.statistics.testsDefined = 1 ∧
      s.statistics.testsIncluded = 1 ∧ s.statistics.testsLaunched = 2) (by decide +kernel)
  exact ⟨x, t, s, hx, h, of_decide_eq_true hs⟩

end E2etest
