import E2etest.Fixtures

/-!
# What the fixture manager is for

A registry has at most one fixture of each type. `Registry.Step` says what may pass between it and
user code: a fixture is set up only if its type has none, a setup answers with the fixture its type
has, and a fixture is torn down when it is given up. `Registry.Run` is a history of such calls.

Nothing here mentions maps, counts or locks; that the calls of the manager are a history of a
registry is proved in `Manager.lean`. Here is what every history has: no type has two fixtures that
are not torn down (`Run.unique`), and what is there from the start and never torn down is never
set up (`Run.not_made`).
-/

namespace E2etest

/-- The fixture of each type, if it has one. -/
abbrev Registry := TypeId → Option Arc

namespace Registry

/-- What one call does to a registry. -/
inductive Step (r : Registry) : FixtureCall → Registry → Prop
  | setup {f : TypeId} (h : r f = none) : Step r (.setup f) r
  | made {f : TypeId} {a : Arc} (h : r f = none) :
      Step r (.made f a) (Function.update r f (some a))
  | returned {f : TypeId} : Step r (.returned f (r f)) r
  | teardown {f : TypeId} {a : Arc} (h : r f = some a) :
      Step r (.teardown a) (Function.update r f none)

/-- What some calls do. -/
inductive Run (r : Registry) : List FixtureCall → Registry → Prop
  | nil : Run r [] r
  | snoc {l : List FixtureCall} {c : FixtureCall} {q q' : Registry} (h : Run r l q)
      (hs : Step q c q') : Run r (l ++ [c]) q'

variable {r q q' : Registry} {l l' : List FixtureCall} {c : FixtureCall} {f : TypeId} {a b : Arc}

theorem Run.single (h : Step r c q) : Run r [c] q := Run.nil.snoc h

theorem Run.trans (h : Run r l q) (h' : Run q l' q') : Run r (l ++ l') q' := by
  induction h' with
  | nil => rwa [List.append_nil]
  | snoc _ hs ih =>
    rw [← List.append_assoc]
    exact ih.snoc hs

/-- A type keeps its fixture until that is torn down. -/
theorem Step.keep (h : Step r c q) (hr : r f = some a) (hc : c ≠ .teardown a) : q f = some a := by
  cases h with
  | setup _ | returned => exact hr
  | @made g b hg =>
    have hne : f ≠ g := fun he => by
      rw [he, hg] at hr
      cases hr
    rwa [Function.update_of_ne hne]
  | @teardown g b hg =>
    have hne : f ≠ g := by
      rintro rfl
      obtain rfl := Option.some.inj (hg.symm.trans hr)
      exact hc rfl
    rwa [Function.update_of_ne hne]

theorem Run.keep (h : Run r l q) (hr : r f = some a) (hl : .teardown a ∉ l) : q f = some a := by
  induction h with
  | nil => exact hr
  | snoc _ hs ih =>
    rw [List.mem_append, not_or, List.mem_singleton] at hl
    exact hs.keep (ih hl.1) (Ne.symm hl.2)

/-- What has been set up and not torn down is the fixture of its type. -/
theorem Run.live_of_made (h : Run r l q) (hm : .made f a ∈ l) (hl : .teardown a ∉ l) :
    q f = some a := by
  induction h with
  | nil => cases hm
  | snoc _ hs ih =>
    rw [List.mem_append, not_or, List.mem_singleton] at hl
    rcases List.mem_append.mp hm with hm | hm
    · exact hs.keep (ih hm hl.1) (Ne.symm hl.2)
    · obtain rfl := List.mem_singleton.mp hm
      cases hs
      exact Function.update_self ..

/-- The fixture of a type was there before, or has been set up. -/
theorem Run.source (h : Run r l q) (hq : q f = some a) : r f = some a ∨ .made f a ∈ l := by
  induction h with
  | nil => exact Or.inl hq
  | @snoc l c q q' _ hs ih =>
    have hleft : q f = some a → r f = some a ∨ .made f a ∈ l ++ [c] := fun hp =>
      (ih hp).imp_right (List.mem_append_left _)
    cases hs with
    | setup _ | returned => exact hleft hq
    | @made g b _ =>
      by_cases hfg : f = g
      · rw [hfg, Function.update_self] at hq
        obtain rfl := Option.some.inj hq
        exact Or.inr (by simp [hfg])
      · rw [Function.update_of_ne hfg] at hq
        exact hleft hq
    | @teardown g b _ =>
      by_cases hfg : f = g
      · rw [hfg, Function.update_self] at hq
        cases hq
      · rw [Function.update_of_ne hfg] at hq
        exact hleft hq

/-- What a setup returns was there before, or has been set up. -/
theorem Run.returned (h : Run r l q) (hr : .returned f (some a) ∈ l) :
    r f = some a ∨ .made f a ∈ l := by
  induction h with
  | nil => cases hr
  | @snoc l c q q' h hs ih =>
    have hleft : r f = some a ∨ .made f a ∈ l → r f = some a ∨ .made f a ∈ l ++ [c] :=
      Or.imp_right (List.mem_append_left _)
    rcases List.mem_append.mp hr with hr | hr
    · exact hleft (ih hr)
    · obtain rfl := List.mem_singleton.mp hr
      have hq : q f = some a := by
        generalize hw : some a = w at hs
        cases hs
        rfl
      exact hleft (h.source hq)

/-- **A type has at most one fixture that has been set up and not torn down.** -/
theorem Run.unique (h : Run r l q) (ha : .made f a ∈ l) (hb : .made f b ∈ l)
    (hda : .teardown a ∉ l) (hdb : .teardown b ∉ l) : a = b :=
  Option.some.inj ((h.live_of_made ha hda).symm.trans (h.live_of_made hb hdb))

/-- A type that has a fixture from the start gets no other while that is not torn down. -/
theorem Run.not_made (h : Run r l q) (hr : r f = some a) (hl : .teardown a ∉ l) :
    .made f b ∉ l := by
  induction h with
  | nil => exact List.not_mem_nil
  | @snoc l c q q' h hs ih =>
    rw [List.mem_append, not_or, List.mem_singleton] at hl ⊢
    refine ⟨ih hl.1, ?_⟩
    rintro rfl
    cases hs with
    | made hq => cases hq.symm.trans (h.keep hr hl.1)

end Registry

end E2etest
