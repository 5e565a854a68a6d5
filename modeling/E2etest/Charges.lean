import E2etest.Accounting

/-!
# Who a group's skip or setup failure is charged to

`iter_included` compares strings; on paths made of names free of `:` it walks down the tree. The path
of a group is expanded to the included tests whose names start with the group's (`mem_yields_path`),
whatever order the set is iterated in, and so one entry of a group in the log raises the counters by
their number and adds them to the name lists (`Statistics.charge`). `Statistics.charges_exact` puts this
together; the set that a run includes is one of such paths (`included_eq_image`).
-/

namespace E2etest

open Async Text Prog

/-- An order in which a `HashSet` can be iterated. -/
structure Iteration (S : Finset Str) where
  order : List Str
  nodup : order.Nodup
  mem_iff : ∀ a, a ∈ order ↔ a ∈ S

namespace Statistics

variable {s s' : Statistics}

/-- `Inner::iter_included`, as the iterator. -/
def yields (s : Statistics) (it : Iteration s.included) (name : Str) : List Str :=
  it.order.filter fun included => included = name ∨ startsWith included (name ++ sep)

theorem yields_nodup (it : Iteration s.included) (name : Str) : (s.yields it name).Nodup :=
  it.nodup.filter _

/-- The iterator yields the set, in its order. -/
theorem mem_yields {it : Iteration s.included} {name x : Str} :
    x ∈ s.yields it name ↔ x ∈ s.iterIncluded name := by
  unfold yields iterIncluded
  rw [List.mem_filter, Finset.mem_filter, it.mem_iff, decide_eq_true_eq]

section Paths

variable {I : Finset NamePath} (hI : s.included = I.image NamePath.path)

include hI

/-- **The paths below a path** are those whose names start with its names. -/
theorem iterIncluded_path (p : NamePath) :
    s.iterIncluded p.path = (I.filter (p ≤ ·)).image NamePath.path := by
  ext x
  rw [mem_iterIncluded, hI]
  simp only [Finset.mem_image, Finset.mem_filter]
  constructor
  · rintro ⟨⟨q, hq, rfl⟩, hunder⟩
    exact ⟨q, ⟨hq, NamePath.under_iff_le.mp hunder⟩, rfl⟩
  · rintro ⟨q, ⟨hq, hle⟩, rfl⟩
    exact ⟨⟨q, hq, rfl⟩, NamePath.under_iff_le.mpr hle⟩

theorem mem_iterIncluded_path {p q : NamePath} :
    q.path ∈ s.iterIncluded p.path ↔ q ∈ I ∧ p ≤ q := by
  rw [iterIncluded_path hI, NamePath.path_injective.mem_finset_image, Finset.mem_filter]

theorem mem_yields_path (it : Iteration s.included) {p : NamePath} {x : Str} :
    x ∈ s.yields it p.path ↔ ∃ q ∈ I, p.names <+: q.names ∧ q.path = x := by
  rw [mem_yields, iterIncluded_path hI]
  simp only [Finset.mem_image, Finset.mem_filter, NamePath.le_iff, and_assoc]

theorem card_iterIncluded_path (p : NamePath) :
    (s.iterIncluded p.path).card = (I.filter (p ≤ ·)).card := by
  rw [iterIncluded_path hI]
  exact Finset.card_image_of_injective _ NamePath.path_injective

end Paths

/-! ## One entry of a group -/

theorem mem_sortDedup {names : List Str} {x : Str} : x ∈ sortDedup names ↔ x ∈ names := by
  have hsorted := List.pairwise_insertionSort (· ≤ ·) names
  unfold sortDedup
  rw [hsorted.destutter_eq_dedup, List.mem_dedup, List.mem_insertionSort]

/-- The log with one more entry. -/
def log (s : Statistics) (name : Str) (event : Event) : Statistics :=
  { s with events := s.events ++ [⟨name, event⟩] }

section Charge

variable {event : Task → Event} (hne : event .group ≠ event .test)

include hne

/-- **An entry of a group** adds what is below it. -/
theorem directAndBelowNames_log (s : Statistics) (name : Str) :
    (s.log name (event .group)).directAndBelowNames event =
      s.directAndBelowNames event ++ s.includedBelow name := by
  have hdirect : (s.log name (event .group)).entries (· == event .test) =
      s.entries (· == event .test) := by
    simp [log, entries, hne]
  have hgroups : (s.log name (event .group)).entries (· == event .group) =
      s.entries (· == event .group) ++ [⟨name, event .group⟩] := by
    simp [log, entries]
  unfold directAndBelowNames
  rw [hdirect, hgroups, List.flatMap_append, List.append_assoc]
  simp [log, includedBelow, iterIncluded]

theorem directAndBelow_log (s : Statistics) (name : Str) :
    (s.log name (event .group)).directAndBelow event =
      s.directAndBelow event + (s.iterIncluded name).card := by
  rw [directAndBelow_eq, directAndBelow_eq, directAndBelowNames_log hne, List.length_append,
    includedBelow, Finset.length_sort]

theorem mem_names_log (s : Statistics) (name x : Str) :
    x ∈ sortDedup ((s.log name (event .group)).directAndBelowNames event) ↔
      x ∈ sortDedup (s.directAndBelowNames event) ∨ x ∈ s.iterIncluded name := by
  rw [mem_sortDedup, mem_sortDedup, directAndBelowNames_log hne, List.mem_append, includedBelow,
    Finset.mem_sort]

end Charge

/-- **What an entry under the path `p` is charged to**, with the paths `I` included. -/
structure Charges (s : Statistics) (I : Finset NamePath) (p : NamePath) : Prop where
  yields : ∀ it, (s.yields it p.path).Nodup ∧
    ∀ x, x ∈ s.yields it p.path ↔ ∃ q ∈ I, p.names <+: q.names ∧ q.path = x
  sibling : ∀ ns n m, n ≠ m → p.names = ns ++ [n] → ∀ q ∈ I, ns ++ [m] <+: q.names →
    ∀ it, q.path ∉ s.yields it p.path
  nested : ∀ q ∈ I, ∀ ns, q.names = p.names ++ ns → ∀ it, q.path ∈ s.yields it p.path
  skipped : ∀ s', s.record p.path (.setupSkipped .group) = some s' →
    s'.testsSkipped = s.testsSkipped + (I.filter (p ≤ ·)).card ∧
      ∀ x, x ∈ s'.testsSkippedNames ↔ x ∈ s.testsSkippedNames ∨ ∃ q ∈ I, p ≤ q ∧ q.path = x
  failed : ∀ s', s.record p.path (.setupFailed .group) = some s' →
    s'.testsSkippedByFixtureErr = s.testsSkippedByFixtureErr + (I.filter (p ≤ ·)).card ∧
      ∀ x, x ∈ s'.testsSkippedByFixtureErrNames ↔
        x ∈ s.testsSkippedByFixtureErrNames ∨ ∃ q ∈ I, p ≤ q ∧ q.path = x

section Charged

variable {I : Finset NamePath} {p : NamePath}

/-- **One entry of the group `p`** is charged to what is below `p`. -/
theorem charge (hI : s.included = I.image NamePath.path) {event : Task → Event}
    (hne : event .group ≠ event .test) (hs : s' = s.log p.path (event .group)) :
    s'.directAndBelow event = s.directAndBelow event + (I.filter (p ≤ ·)).card ∧
      ∀ x, x ∈ sortDedup (s'.directAndBelowNames event) ↔
        x ∈ sortDedup (s.directAndBelowNames event) ∨ ∃ q ∈ I, p ≤ q ∧ q.path = x := by
  subst hs
  refine ⟨?_, fun x => ?_⟩
  · rw [directAndBelow_log hne, card_iterIncluded_path hI]
  · rw [mem_names_log hne, iterIncluded_path hI]
    simp only [Finset.mem_image, Finset.mem_filter, and_assoc]

/-- **A group's skip or setup failure is charged to the included tests below it**, and to no other. -/
theorem charges_exact (hI : s.included = I.image NamePath.path) (p : NamePath) :
    s.Charges I p where
  yields it := ⟨yields_nodup it p.path, fun _ => mem_yields_path hI it⟩
  sibling ns n m hnm hp q _ hq it := by
    rw [mem_yields, mem_iterIncluded_path hI]
    exact fun h => NamePath.not_le_of_sibling hnm hp hq h.2
  nested q hq ns hns it := by
    rw [mem_yields, mem_iterIncluded_path hI]
    exact ⟨hq, ns, hns.symm⟩
  skipped _ h := charge hI (by decide) (record_cases (by decide) (by decide) h)
  failed _ h := charge hI (by decide) (record_cases (by decide) (by decide) h)

end Charged

end Statistics

/-! ## The paths of a run -/

/-- **The included set of a run** is one of paths, on a tree whose names hold no `:`. -/
theorem included_eq_image {config : Config} {g : Group} {x : Sys} (hg : g.ColonFree)
    (hx : run config g = some x) :
    ∃ I : Finset NamePath, x.state.statistics.included = I.image NamePath.path := by
  have hsub : (x.state.statistics.included : Set Str) ⊆ NamePath.path '' Set.univ := by
    intro s hs
    obtain ⟨n, hn, -, rfl⟩ := (mem_included hg hx s).mp hs
    have hcol := hg n (Group.mem_leaves.mp hn).1
    exact ⟨⟨n.names, by simp [Node.names], hcol⟩, Set.mem_univ _, rfl⟩
  obtain ⟨I, -, hI⟩ := Finset.subset_set_image_iff.mp hsub
  exact ⟨I, hI.symm⟩

/-- A root group `r` with the subgroups `a` and `aa`, which have a test `t` each. -/
def likeNamed : Group :=
  .mk ['r'] { typeId := 0 } []
    [.mk ['a'] { typeId := 1 } [{ name := ['t'], fixture := { typeId := 2 } }] [],
      .mk ['a', 'a'] { typeId := 3 } [{ name := ['t'], fixture := { typeId := 4 } }] []]

/-- An entry of `r::a`, beside `r::aa`. -/
theorem charges_exact_likeNamed : ∃ x I, run {} likeNamed = some x ∧
    x.state.statistics.included = I.image NamePath.path ∧
      x.state.statistics.Charges I ⟨[['r'], ['a']], by decide, by decide⟩ := by
  obtain ⟨x, hx⟩ := run_isSome {} likeNamed
  obtain ⟨I, hI⟩ := included_eq_image (by decide) hx
  exact ⟨x, I, hx, hI, Statistics.charges_exact hI _⟩

end E2etest
