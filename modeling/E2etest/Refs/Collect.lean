import Mathlib.Data.Set.Basic
import Mathlib.Logic.Relation
import Mathlib.Order.WellFounded

/-!
# Collecting what nothing points to

Objects hold one another (`holds`), some of them are held from outside (`root`). An object is free
when it is live and neither a root nor a live object holds it; `Collect` takes free objects away one
after the other, in any order.

* `Collect.live_of_reached`: what can be reached from a root is never taken.
* `reached_of_no_free`: when nothing is free any more, and chains of holders end, everything that is
  left can be reached from a root.
* `Collect.holder_first`: the holders of an object are taken before it.
* `Collect.mem_iff`, `Collect.mem_taken_iff`: so what is left, and what is taken, do not depend on the
  order.
-/

namespace Refs

variable {α : Type*} {holds : α → α → Prop} {root : α → Prop}

/-- A root holds the object, directly or not. -/
def Reached (holds : α → α → Prop) (root : α → Prop) (a : α) : Prop :=
  ∃ e, root e ∧ Relation.ReflTransGen holds e a

/-- Nothing points to a live object. -/
structure Free (holds : α → α → Prop) (root : α → Prop) (live : Set α) (a : α) : Prop where
  mem : a ∈ live
  not_root : ¬ root a
  not_held : ∀ b ∈ live, ¬ holds b a

/-- Free objects are taken away, one after the other. -/
inductive Collect (holds : α → α → Prop) (root : α → Prop) (live : Set α) :
    List α → Set α → Prop
  | nil : Collect holds root live [] live
  | snoc {ds : List α} {l : Set α} {a : α} (h : Collect holds root live ds l)
      (ha : Free holds root l a) : Collect holds root live (ds ++ [a]) (l \ {a})

variable {live l : Set α} {ds : List α} {a b : α}

theorem Reached.tail (h : Reached holds root b) (hba : holds b a) : Reached holds root a := by
  obtain ⟨e, he, hb⟩ := h
  exact ⟨e, he, hb.tail hba⟩

/-- When nothing is free, and chains of holders end, everything can be reached. -/
theorem reached_of_no_free (hwf : WellFounded holds) (h : ∀ a, ¬ Free holds root l a) :
    ∀ a ∈ l, Reached holds root a := by
  intro a
  induction a using hwf.induction with
  | _ a ih =>
    intro ha
    by_cases hr : root a
    · exact ⟨a, hr, .refl⟩
    · by_contra hno
      refine h a ⟨ha, hr, fun b hb hba => hno ?_⟩
      exact (ih b hba hb).tail hba

namespace Collect

theorem live_iff (h : Collect holds root live ds l) : a ∈ live ↔ a ∈ ds ∨ a ∈ l := by
  induction h with
  | nil => simp
  | @snoc ds l d h hd ih =>
    rw [ih, List.mem_append, List.mem_singleton, Set.mem_sdiff, Set.mem_singleton_iff]
    have := hd.mem
    by_cases had : a = d
    · subst had
      simp [this]
    · simp [had]

theorem disjoint (h : Collect holds root live ds l) : a ∈ ds → a ∉ l := by
  induction h with
  | nil => exact fun ha => absurd ha List.not_mem_nil
  | snoc h hd ih =>
    rintro ha ⟨hl, hne⟩
    rcases List.mem_append.mp ha with ha | ha
    · exact ih ha hl
    · exact hne (List.mem_singleton.mp ha)

theorem nodup (h : Collect holds root live ds l) : ds.Nodup := by
  induction h with
  | nil => exact List.nodup_nil
  | snoc h hd ih =>
    refine List.nodup_append.mpr ⟨ih, by simp, ?_⟩
    rintro a ha b hb rfl
    obtain rfl := List.mem_singleton.mp hb
    exact h.disjoint ha hd.mem

/-- What can be reached is never taken. -/
theorem live_of_reached (h : Collect holds root live ds l) (hh : ∀ b a, holds b a → b ∈ live)
    (ha : a ∈ live) (hr : Reached holds root a) : a ∈ l := by
  induction h generalizing a with
  | nil => exact ha
  | @snoc ds l d h hd ih =>
    refine ⟨ih ha hr, ?_⟩
    rintro rfl
    obtain ⟨e, he, hea⟩ := hr
    rcases hea.cases_tail with rfl | ⟨b, heb, hba⟩
    · exact hd.not_root he
    · exact hd.not_held b (ih (hh b a hba) ⟨e, he, heb⟩) hba

/-- **The holders of an object are taken before it.** -/
theorem holder_first (h : Collect holds root live ds l) {pre post : List α}
    (hds : ds = pre ++ a :: post) (hb : b ∈ live) (hba : holds b a) : b ∈ pre := by
  induction h generalizing post with
  | nil => simp at hds
  | @snoc ds l d h hd ih =>
    rcases List.eq_nil_or_concat post with rfl | ⟨post, c, rfl⟩
    · obtain ⟨rfl, hc⟩ := List.append_inj' hds rfl
      obtain rfl := List.singleton_inj.mp hc
      exact (h.live_iff.mp hb).resolve_right fun hl => hd.not_held b hl hba
    · rw [List.concat_eq_append, ← List.cons_append, ← List.append_assoc] at hds
      obtain ⟨hds, -⟩ := List.append_inj' hds rfl
      exact ih hds

section Done

variable (hh : ∀ b a, holds b a → b ∈ live) (hwf : WellFounded holds)

include hh hwf

/-- **What is left** when nothing is free. -/
theorem mem_iff (h : Collect holds root live ds l) (hdone : ∀ a, ¬ Free holds root l a) :
    a ∈ l ↔ a ∈ live ∧ Reached holds root a :=
  ⟨fun ha => ⟨h.live_iff.mpr (Or.inr ha), reached_of_no_free hwf hdone a ha⟩,
    fun ha => h.live_of_reached hh ha.1 ha.2⟩

/-- **What has been taken** when nothing is free. -/
theorem mem_taken_iff (h : Collect holds root live ds l) (hdone : ∀ a, ¬ Free holds root l a) :
    a ∈ ds ↔ a ∈ live ∧ ¬ Reached holds root a := by
  constructor
  · intro ha
    have hlive := h.live_iff.mpr (Or.inl ha)
    exact ⟨hlive, fun hr => h.disjoint ha (h.live_of_reached hh hlive hr)⟩
  · rintro ⟨ha, hr⟩
    exact (h.live_iff.mp ha).resolve_right fun hl => hr (reached_of_no_free hwf hdone a hl)

end Done

end Collect

end Refs
