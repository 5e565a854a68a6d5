import Mathlib.Data.List.Induction

/-!
# Settings, one after the other

A parser takes what it reads off the front of the tokens. `settings` reads with one parser until
nothing is left, and puts each thing read into what it has so far. `Reads` is what there is to read;
`settings_iff`: the loop ends with all of it, in order, when each thing read takes some token.
-/

namespace Text

universe u v

/-- A parser: what it has read and what it leaves, or an error. -/
abbrev Parser (τ ε α : Type*) := List τ → Except ε (α × List τ)

theorem bind_eq_ok {ε : Type u} {α β : Type v} {x : Except ε α} {f : α → Except ε β} {b : β} :
    (x >>= f) = .ok b ↔ ∃ a, x = .ok a ∧ f a = .ok b := by
  constructor
  · intro h
    cases x with
    | error e => cases h
    | ok a => exact ⟨a, rfl, h⟩
  · rintro ⟨a, rfl, h⟩
    exact h

section Settings

variable {τ ε σ P : Type*}

/-- `while !input.is_empty()`, for so many rounds. -/
def settings (late : ε) (item : Parser τ ε σ) (put : P → σ → P) : Nat → P → List τ → Except ε P
  | _, p, [] => .ok p
  | 0, _, _ :: _ => .error late
  | n + 1, p, t :: ts =>
    match item (t :: ts) with
    | .ok (s, rest) => settings late item put n (put p s) rest
    | .error e => .error e

/-- The tokens are these things, one after the other. -/
inductive Reads (item : Parser τ ε σ) : List τ → List σ → Prop
  | done : Reads item [] []
  | next {t : τ} {ts rest : List τ} {s : σ} {ss : List σ} (h : item (t :: ts) = .ok (s, rest))
      (hs : Reads item rest ss) : Reads item (t :: ts) (s :: ss)

/-- The parser takes some token. -/
def Takes (item : Parser τ ε σ) : Prop :=
  ∀ ts s rest, item ts = .ok (s, rest) → rest.length < ts.length

variable {late : ε} {item : Parser τ ε σ} {put : P → σ → P}

/-- **The loop reads everything there is**, and there are rounds enough for it. -/
theorem settings_iff (hitem : Takes item) {n : Nat} {p p' : P} {ts : List τ}
    (hn : ts.length ≤ n) : settings late item put n p ts = .ok p' ↔
      ∃ ss, Reads item ts ss ∧ p' = ss.foldl put p := by
  induction n generalizing p ts with
  | zero =>
    obtain rfl := List.length_eq_zero_iff.mp (Nat.le_zero.mp hn)
    constructor
    · intro h
      cases h
      exact ⟨[], .done, rfl⟩
    · rintro ⟨ss, hs, rfl⟩
      cases hs
      rfl
  | succ n ih =>
    cases ts with
    | nil =>
      constructor
      · intro h
        cases h
        exact ⟨[], .done, rfl⟩
      · rintro ⟨ss, hs, rfl⟩
        cases hs
        rfl
    | cons t ts =>
      unfold settings
      cases hi : item (t :: ts) with
      | error e =>
        constructor
        · intro h
          cases h
        · rintro ⟨ss, hs, -⟩
          cases hs with
          | next h =>
            rw [hi] at h
            cases h
      | ok r =>
        obtain ⟨s, rest⟩ := r
        have hrest := hitem _ _ _ hi
        simp only
        rw [ih (by simp only [List.length_cons] at hn hrest; omega)]
        constructor
        · rintro ⟨ss, hs, rfl⟩
          exact ⟨s :: ss, .next hi hs, rfl⟩
        · rintro ⟨_, hs, rfl⟩
          cases hs with
          | next h hs =>
            rw [hi] at h
            cases h
            exact ⟨_, hs, rfl⟩

end Settings

/-- What comes last counts. -/
theorem foldl_last {σ P α : Type*} {put : P → σ → P} {field : P → α} {is : σ → Option α}
    (h : ∀ p s, field (put p s) = (is s).getD (field p)) (ss : List σ) (p : P) :
    field (ss.foldl put p) = ((ss.filterMap is).getLast?).getD (field p) := by
  induction ss using List.reverseRecOn with
  | nil => rfl
  | append_singleton ss s ih =>
    rw [List.foldl_append, List.foldl_cons, List.foldl_nil, h, ih, List.filterMap_append]
    cases hs : is s with
    | none => simp [hs]
    | some a => simp [hs]

end Text
