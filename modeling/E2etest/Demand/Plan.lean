import Mathlib.Data.Set.Insert

/-!
# Things made on demand

A `Plan` says how each thing is made: which other one is asked for next, given which of those before
could be had, and at last whether there is a result.

* `Ends` is the meaning of a plan: what is asked for is made anew each time. It has at most one
  outcome (`Ends.unique`), `Plan.outcome`.
* `Stored` is the same with a store: what is in it is not made again, and what has been made is put
  into it. `Stored.ends`: the store is not noticed, as long as all that is in it can be made; what
  leaves the store meanwhile does not matter (`Genuine.mono`).
-/

namespace Demand

variable {κ : Type*}

/-- What the making of a thing ends with. -/
inductive Outcome
  | made
  | skipped
  /-- It ends everything that waits for it, too. -/
  | failed
  deriving DecidableEq, Repr

/-- What the making of a thing does next. -/
inductive Move (κ : Type*)
  | ask (d : κ)
  | finish (o : Outcome)
  deriving DecidableEq

/-- How things are made: the next move, by the answers so far. -/
abbrev Plan (κ : Type*) := κ → List Bool → Move κ

/-- What is given need not be made. -/
def Plan.given (p : Plan κ) (given : κ → Bool) : Plan κ := fun k answers =>
  if given k then .finish .made else p k answers

theorem Plan.given_of_not {p : Plan κ} {given : κ → Bool} {k : κ} {answers : List Bool}
    (h : given k = false) : p.given given k answers = p k answers := by
  unfold Plan.given
  rw [h, if_neg Bool.false_ne_true]

theorem Plan.given_of_given {p : Plan κ} {given : κ → Bool} {k : κ} {answers : List Bool}
    (h : given k = true) : p.given given k answers = .finish .made := by
  unfold Plan.given
  rw [if_pos h]

/-- How the making of a thing ends, after some answers. -/
inductive Ends (p : Plan κ) : κ → List Bool → Outcome → Prop
  | finish {k : κ} {answers : List Bool} {o : Outcome} (h : p k answers = .finish o) :
      Ends p k answers o
  | made {k d : κ} {answers : List Bool} {o : Outcome} (h : p k answers = .ask d)
      (hd : Ends p d [] .made) (hk : Ends p k (answers ++ [true]) o) : Ends p k answers o
  | skipped {k d : κ} {answers : List Bool} {o : Outcome} (h : p k answers = .ask d)
      (hd : Ends p d [] .skipped) (hk : Ends p k (answers ++ [false]) o) : Ends p k answers o
  | failed {k d : κ} {answers : List Bool} (h : p k answers = .ask d) (hd : Ends p d [] .failed) :
      Ends p k answers .failed

variable {p : Plan κ} {k : κ} {answers : List Bool} {o o' : Outcome}

/-- **There is one outcome.** -/
theorem Ends.unique (h : Ends p k answers o) (h' : Ends p k answers o') : o = o' := by
  induction h generalizing o' with
  | finish h =>
    cases h' with
    | finish hf => exact (Move.finish.inj (h.symm.trans hf))
    | made ha _ _ | skipped ha _ _ => cases h.symm.trans ha
    | failed ha _ => cases h.symm.trans ha
  | made h hd hk ihd ihk =>
    cases h' with
    | finish hf => cases h.symm.trans hf
    | made _ _ hk' => exact ihk hk'
    | skipped ha hd' _ =>
      obtain rfl := Move.ask.inj (h.symm.trans ha)
      cases ihd hd'
    | failed ha hd' =>
      obtain rfl := Move.ask.inj (h.symm.trans ha)
      cases ihd hd'
  | skipped h hd hk ihd ihk =>
    cases h' with
    | finish hf => cases h.symm.trans hf
    | skipped _ _ hk' => exact ihk hk'
    | made ha hd' _ =>
      obtain rfl := Move.ask.inj (h.symm.trans ha)
      cases ihd hd'
    | failed ha hd' =>
      obtain rfl := Move.ask.inj (h.symm.trans ha)
      cases ihd hd'
  | failed h hd ihd =>
    cases h' with
    | finish hf => cases h.symm.trans hf
    | failed _ _ => rfl
    | made ha hd' _ | skipped ha hd' _ =>
      obtain rfl := Move.ask.inj (h.symm.trans ha)
      cases ihd hd'

open Classical in
/-- The outcome of a plan, if it comes to an end. -/
noncomputable def Plan.outcome (p : Plan κ) (k : κ) : Outcome :=
  if h : ∃ o, Ends p k [] o then h.choose else .failed

theorem Ends.outcome_eq (h : Ends p k [] o) : p.outcome k = o := by
  have hex : ∃ o, Ends p k [] o := ⟨o, h⟩
  unfold Plan.outcome
  rw [dif_pos hex]
  exact hex.choose_spec.unique h

/-- How the making of a thing ends with a store, and what is in the store then. -/
inductive Stored (p : Plan κ) : Set κ → κ → List Bool → Outcome → Set κ → Prop
  | finish {m : Set κ} {k : κ} {answers : List Bool} {o : Outcome}
      (h : p k answers = .finish o) : Stored p m k answers o m
  | found {m m' : Set κ} {k d : κ} {answers : List Bool} {o : Outcome}
      (h : p k answers = .ask d) (hd : d ∈ m) (hk : Stored p m k (answers ++ [true]) o m') :
      Stored p m k answers o m'
  | made {m m₁ m' : Set κ} {k d : κ} {answers : List Bool} {o : Outcome}
      (h : p k answers = .ask d) (hm : d ∉ m) (hd : Stored p m d [] .made m₁)
      (hk : Stored p (insert d m₁) k (answers ++ [true]) o m') : Stored p m k answers o m'
  | skipped {m m₁ m' : Set κ} {k d : κ} {answers : List Bool} {o : Outcome}
      (h : p k answers = .ask d) (hm : d ∉ m) (hd : Stored p m d [] .skipped m₁)
      (hk : Stored p m₁ k (answers ++ [false]) o m') : Stored p m k answers o m'
  | failed {m m₁ : Set κ} {k d : κ} {answers : List Bool} (h : p k answers = .ask d) (hm : d ∉ m)
      (hd : Stored p m d [] .failed m₁) : Stored p m k answers .failed m₁

/-- What asking for a thing ends with, and what is in the store then. -/
inductive Asked (p : Plan κ) (m : Set κ) (d : κ) : Outcome → Set κ → Prop
  | found (hd : d ∈ m) : Asked p m d .made m
  | made {m₁ : Set κ} (hm : d ∉ m) (h : Stored p m d [] .made m₁) : Asked p m d .made (insert d m₁)
  | not_made {m₁ : Set κ} {o : Outcome} (hm : d ∉ m) (h : Stored p m d [] o m₁) (ho : o ≠ .made) :
      Asked p m d o m₁

section Ask

variable {m m₁ m' : Set κ} {d : κ}

/-- What has asked goes on with the answer. -/
theorem Asked.then_made (hd : Asked p m d .made m₁) (h : p k answers = .ask d)
    (hk : Stored p m₁ k (answers ++ [true]) o m') : Stored p m k answers o m' := by
  cases hd with
  | found hd => exact .found h hd hk
  | made hm hd => exact .made h hm hd hk
  | not_made _ _ ho => exact absurd rfl ho

theorem Asked.then_skipped (hd : Asked p m d .skipped m₁) (h : p k answers = .ask d)
    (hk : Stored p m₁ k (answers ++ [false]) o m') : Stored p m k answers o m' := by
  cases hd with
  | not_made hm hd _ => exact .skipped h hm hd hk

theorem Asked.then_failed (hd : Asked p m d .failed m₁) (h : p k answers = .ask d) :
    Stored p m k answers .failed m₁ := by
  cases hd with
  | not_made hm hd _ => exact .failed h hm hd

end Ask

/-- All that is in the store can be made. -/
def Genuine (p : Plan κ) (m : Set κ) : Prop := ∀ k ∈ m, Ends p k [] .made

theorem Genuine.mono {m m' : Set κ} (h : Genuine p m) (hm : m' ⊆ m) : Genuine p m' :=
  fun k hk => h k (hm hk)

theorem Genuine.insert {m : Set κ} (h : Genuine p m) (hk : Ends p k [] .made) :
    Genuine p (insert k m) := by
  rintro d (rfl | hd)
  · exact hk
  · exact h d hd

/-- **The store is not noticed.** -/
theorem Stored.ends {m m' : Set κ} (h : Stored p m k answers o m') (hm : Genuine p m) :
    Ends p k answers o ∧ Genuine p m' := by
  induction h with
  | finish h => exact ⟨.finish h, hm⟩
  | found h hd hk ih =>
    obtain ⟨hends, hm'⟩ := ih hm
    exact ⟨.made h (hm _ hd) hends, hm'⟩
  | made h _ hd hk ihd ihk =>
    obtain ⟨hmade, hm₁⟩ := ihd hm
    obtain ⟨hends, hm'⟩ := ihk (hm₁.insert hmade)
    exact ⟨.made h hmade hends, hm'⟩
  | skipped h _ hd hk ihd ihk =>
    obtain ⟨hskipped, hm₁⟩ := ihd hm
    obtain ⟨hends, hm'⟩ := ihk hm₁
    exact ⟨.skipped h hskipped hends, hm'⟩
  | failed h _ hd ihd =>
    obtain ⟨hfailed, hm₁⟩ := ihd hm
    exact ⟨.failed h hfailed, hm₁⟩

theorem Asked.ends {m m' : Set κ} {d : κ} (h : Asked p m d o m') (hm : Genuine p m) :
    Ends p d [] o ∧ Genuine p m' := by
  cases h with
  | found hd => exact ⟨hm d hd, hm⟩
  | made _ h =>
    obtain ⟨hends, hm₁⟩ := h.ends hm
    exact ⟨hends, hm₁.insert hends⟩
  | not_made _ h _ => exact h.ends hm

end Demand
