import E2etest.Selection
import E2etest.System
import Mathlib.Tactic.Tauto

/-!
# What `run` includes

The loop `run` starts with never fails an assertion, and includes the names its filter lets through
(`selectTests_spec`). On a tree whose names hold no `:` these are the paths of the tests that
`run_group` lets through on its way (`mem_included`).
-/

namespace E2etest

open Text

theorem selectTest_eq (filter : Filter) (groupName name : Str) (s : Statistics) (empty : Bool) :
    selectTest filter groupName (s, empty) name = some
      ({ s with
          defined := insert (groupName ++ sep ++ name) s.defined
          included := if considersName filter groupName name then
            insert (groupName ++ sep ++ name) s.included else s.included },
        empty && !considersName filter groupName name) := by
  cases h : considersName filter groupName name <;>
    simp [selectTest, Statistics.record, considersName, nameGroup, nameTest] at h ⊢ <;> simp [h]

/-- What the loop has done after some names. -/
theorem selectTests_foldl (filter : Filter) (groupName : Str) :
    ∀ (names : List Str) (s : Statistics) (empty : Bool), s.events = [] → ∃ s',
      names.foldlM (selectTest filter groupName) (s, empty) =
        some (s', empty && !names.any (considersName filter groupName)) ∧ s'.events = [] ∧
      ∀ p, p ∈ s'.included ↔ p ∈ s.included ∨
        ∃ name ∈ names, considersName filter groupName name = true ∧ p = groupName ++ sep ++ name
  | [], s, empty, hs => ⟨s, by simp, hs, by simp⟩
  | name :: names, s, empty, hs => by
    rw [List.foldlM_cons, selectTest_eq, Option.bind_eq_bind, Option.bind_some]
    obtain ⟨s', hs', he, hinc⟩ := selectTests_foldl filter groupName names
      { s with
        defined := insert (groupName ++ sep ++ name) s.defined
        included := if considersName filter groupName name then
          insert (groupName ++ sep ++ name) s.included else s.included }
      (empty && !considersName filter groupName name) hs
    refine ⟨s', ?_, he, fun p => ?_⟩
    · rw [hs', List.any_cons, Bool.not_or, Bool.and_assoc]
    · rw [hinc, List.exists_mem_cons_iff]
      cases hc : considersName filter groupName name with
      | false => simp
      | true =>
        simp only [if_true, Finset.mem_insert, true_and]
        tauto

/-- **The selection of `run`** fails no assertion and includes what the filter lets through. -/
theorem selectTests_spec (filter : Filter) (g : Group) : ∃ s,
    selectTests filter g = some (s, !g.testNames.any (considersName filter g.name)) ∧
      s.events = [] ∧ ∀ p, p ∈ s.included ↔ ∃ name ∈ g.testNames,
        considersName filter g.name name = true ∧ p = g.name ++ sep ++ name := by
  obtain ⟨s, hs, he, hinc⟩ := selectTests_foldl filter g.name g.testNames .new true rfl
  exact ⟨s, by simpa [selectTests] using hs, he, fun p => by simpa [Statistics.new] using hinc p⟩

/-! ## The system `run` starts -/

section Run

variable {config : Config} {g : Group} {x : Sys}

/-- The runner has something to do only when some test is included. -/
theorem run_spec (h : run config g = some x) :
    x.state.statistics.events = [] ∧
    x.state.inner = .withPermanent config.permanentFixtures ∧
    (∀ p, p ∈ x.state.statistics.included ↔ ∃ name ∈ g.testNames,
      considersName (.new config.filters g) g.name name = true ∧ p = g.name ++ sep ++ name) ∧
    (x.state.statistics.included = ∅ ∧ x.prog = .pure () ∨
      x.state.statistics.included ≠ ∅ ∧ x.prog = runGroup [] [] (config.context g) g) := by
  obtain ⟨s, hs, he, hinc⟩ := selectTests_spec (config.context g).filter g
  rw [run, hs, Option.map_some] at h
  obtain rfl := Option.some.inj h
  refine ⟨he, rfl, hinc, ?_⟩
  cases hany : g.testNames.any (considersName (config.context g).filter g.name) with
  | true =>
    obtain ⟨name, hname, hc⟩ := List.any_eq_true.mp hany
    exact Or.inr ⟨Finset.ne_empty_of_mem ((hinc _).mpr ⟨name, hname, hc, rfl⟩), rfl⟩
  | false =>
    refine Or.inl ⟨Finset.eq_empty_iff_forall_notMem.mpr fun p hp => ?_, rfl⟩
    obtain ⟨name, hname, hc, -⟩ := (hinc p).mp hp
    exact absurd hc (List.any_eq_false.mp hany name hname)

/-- `run` fails no assertion before it starts the root group. -/
theorem run_isSome (config : Config) (g : Group) : ∃ x, run config g = some x := by
  obtain ⟨s, hs, -⟩ := selectTests_spec (config.context g).filter g
  exact ⟨_, by rw [run, hs]; rfl⟩

/-- **What is included**, on a tree whose names hold no `:`. -/
theorem mem_included (hg : g.ColonFree) (h : run config g = some x) (p : Str) :
    p ∈ x.state.statistics.included ↔ ∃ n ∈ g.leaves,
      (Filter.new config.filters g).considerTest n.parents n.name = true ∧ p = n.path := by
  rw [(run_spec h).2.2.1, Group.testNames_eq_leaves]
  simp only [List.mem_map, exists_exists_and_eq_and]
  refine exists_congr fun n => and_congr_right fun hn => ?_
  rw [Group.considersName_leaf hg hn, Group.leaf_path hn]

end Run

end E2etest
