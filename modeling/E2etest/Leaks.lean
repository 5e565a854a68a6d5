import E2etest.Residue

/-!
# What the root leaves behind

A teardown that fails ends the sweep it is part of, and what the sweep has not met yet waits for
another one. The root has the last sweep. So every fixture that has been set up is torn down, and
only once, exactly when the root's sweep has not failed with something left in the cache
(`torn_once_iff`).

That the root is due until then, whatever fails before, is `root_due`.
-/

namespace E2etest

open Async Text E2etest.Inner

/-- Every fixture that has been set up has been torn down once, and the permanent ones never. -/
def TornOnce (s : Inner) : Prop :=
  (∀ f a, .made f a ∈ s.calls → s.calls.count (.teardown a) = 1) ∧
    ∀ a, s.Permanent a → .teardown a ∉ s.calls

section Run

variable {G : FixtureGraph} {config : Config} {g : Group} {x y : Sys} {t : List Label}
  {s : State}

/-- **Every fixture is torn down once, and the permanent ones never**, in every run that returns,
exactly when no teardown has failed in the sweep of the root while something was in the cache. -/
theorem torn_once_iff (hx : run config g = some x) (h : Sys.Completes G x t s) :
    TornOnce s.inner ↔ ¬ LeavesBehind G x.state t := by
  have hs := sound_of_run hx h
  have hdone := still_of_completes hx h
  rcases root_due hx h with ⟨hleft, hcache, -⟩ | ⟨hleft, -⟩
  · refine iff_of_false (fun htorn => ?_) (not_not_intro hleft)
    -- what is left has been made and not torn down
    obtain ⟨f, a, hf⟩ : ∃ f a, s.inner.cache.lookup f = some a := by
      by_contra hno
      refine hcache (AList.ext (List.eq_nil_iff_forall_not_mem.mpr ?_))
      rintro ⟨f, a⟩ hmem
      exact hno ⟨f, a, AList.mem_lookup_iff.mpr hmem⟩
    have hpresent : s.Present a := Or.inl ⟨f, hf⟩
    have hmade := hs.logged.made a
    rw [if_pos (hs.logged.present a hpresent)] at hmade
    obtain ⟨c, hc, hca⟩ := List.countP_pos_iff.mp (hmade ▸ Nat.one_pos)
    cases c with
    | made k b =>
      obtain rfl : b = a := of_decide_eq_true hca
      have hone := htorn.1 k b hc
      rw [hs.logged.kept b (Or.inl hpresent)] at hone
      cases hone
    | _ => cases hca
  · refine iff_of_true ?_ hleft
    have hcache := cache_of_completes hx h (settled_of_completes hx h hleft)
    have hgone : ∀ a, ¬ s.Present a := by
      rintro a (⟨f, hf⟩ | ⟨n, pending, hn⟩)
      · rw [hcache] at hf
        cases hf
      · cases (hs.held.task_eq_none (not_moving_of_done (hdone n))).symm.trans hn
    refine ⟨fun f a hm => ?_, fun a ⟨f, hf⟩ => ?_⟩
    · have hpos : 0 < s.inner.calls.countP (isMade a) :=
        List.countP_pos_iff.mpr ⟨_, hm, decide_eq_true rfl⟩
      rw [hs.logged.made a] at hpos
      split at hpos
      · rename_i hrange
        exact hs.logged.torn a hrange.1 hrange.2 (hgone a)
      · cases hpos
    · refine List.count_eq_zero.mp (hs.logged.kept a (Or.inr (Or.inl ?_)))
      have hbare := State.bare_withPermanent config.permanentFixtures
      rw [hs.logged.permanent] at hf
      exact (List.getElem?_eq_some_iff.mp (hbare.permanent f a hf)).1

/-- A run in which nothing is left. -/
theorem torn_once_twoTests : ∃ x t s, run {} twoTests = some x ∧
    Sys.Completes .onSmaller x t s ∧ .made 2 3 ∈ s.inner.calls ∧
    (TornOnce s.inner ↔ ¬ LeavesBehind .onSmaller x.state t) := by
  obtain ⟨x, t, s, hx, h, hP⟩ := exists_completes_of_endsWith .onSmaller nestedScripts {} twoTests
    100 (fun _ s => .made 2 3 ∈ s.inner.calls) (by decide +kernel)
  exact ⟨x, t, s, hx, h, of_decide_eq_true hP, torn_once_iff hx h⟩

/-- A root group with one test, whose fixture holds two others. -/
def oneTest : Group := .mk ['r'] { typeId := 2 } [{ name := ['x'], fixture := { typeId := 3 } }] []

/-- The teardown of the root's own fixture fails. -/
def rootFails : Scenario where
  script
    | .group _ => .setup 0 (.done []) (.setup 1 (.done []) (.done [0, 1]))
    | .test _ _ => .done []
  teardown a := if a = (2 : Nat) then .error () else .ok ()

/-- **The teardown of one fixture fails, and two others are never torn down.** -/
theorem root_leaks : ∃ x t s, run {} oneTest = some x ∧ Sys.Completes .onSmaller x t s ∧
    .made 0 0 ∈ s.inner.calls ∧ .teardown 0 ∉ s.inner.calls ∧ ¬ TornOnce s.inner := by
  obtain ⟨x, t, s, hx, h, hP⟩ := exists_completes_of_endsWith .onSmaller rootFails {} oneTest 100
    (fun _ s => .made 0 0 ∈ s.inner.calls ∧ .teardown 0 ∉ s.inner.calls) (by decide +kernel)
  obtain ⟨hmade, htorn⟩ := of_decide_eq_true hP
  refine ⟨x, t, s, hx, h, hmade, htorn, fun hall => ?_⟩
  have hone := hall.1 0 0 hmade
  rw [List.count_eq_zero.mpr htorn] at hone
  cases hone

end Run

end E2etest
