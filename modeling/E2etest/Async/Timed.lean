/-!
# Futures that take time

A future takes some time and returns, or panics. `Timed` composes them one after the other, and
`Timed.within` puts a limit on one.

* `within_eq_error_iff`: a future within a limit fails if it takes longer, or panics.
* `elapsed_le_bind`: what is part of a future takes no longer than the whole.
-/

namespace Async

/-- A future, by the time it takes and what it comes to; an error is a panic. -/
structure Timed (α : Type) where
  elapsed : Nat
  result : Except Unit α
  deriving Repr

namespace Timed

variable {α β : Type}

/-- A future that is ready. -/
def ready (a : α) : Timed α := ⟨0, .ok a⟩

/-- One future after another. -/
def andThen (p : Timed α) (f : α → Timed β) : Timed β :=
  match p.result with
  | .ok a => ⟨p.elapsed + (f a).elapsed, (f a).result⟩
  | .error e => ⟨p.elapsed, .error e⟩

instance : Monad Timed where
  pure := ready
  bind := andThen

/-- A future that waits. -/
def sleep (d : Nat) : Timed Unit := ⟨d, .ok ()⟩

/-- The time that parts take one after the other. -/
def total : List Nat → Nat
  | [] => 0
  | d :: ds => d + total ds

@[simp] theorem total_nil : total [] = 0 := rfl

@[simp] theorem total_cons (d : Nat) (ds : List Nat) : total (d :: ds) = d + total ds := rfl

theorem total_append (ds es : List Nat) : total (ds ++ es) = total ds + total es := by
  induction ds with
  | nil => rw [List.nil_append, total_nil, Nat.zero_add]
  | cons d ds ih => rw [List.cons_append, total_cons, total_cons, ih, Nat.add_assoc]

/-- Parts that take no time take none together. -/
theorem total_eq_zero {ds : List Nat} (h : ∀ d ∈ ds, d = 0) : total ds = 0 := by
  induction ds with
  | nil => rfl
  | cons d ds ih =>
    rw [List.forall_mem_cons] at h
    rw [total_cons, h.1, ih h.2]

/-- A future with a limit on the time it may take. -/
def within (limit : Nat) (p : Timed α) : Except Unit α :=
  if limit < p.elapsed then .error () else p.result

section Bind

variable {p : Timed α} {f : α → Timed β} {a : α}

theorem pure_eq (a : α) : (pure a : Timed α) = ⟨0, .ok a⟩ := rfl

theorem bind_ok (h : p.result = .ok a) :
    p >>= f = ⟨p.elapsed + (f a).elapsed, (f a).result⟩ := by
  change p.andThen f = _
  unfold andThen
  rw [h]

theorem bind_error (h : p.result = .error ()) : p >>= f = ⟨p.elapsed, .error ()⟩ := by
  change p.andThen f = _
  unfold andThen
  rw [h]

/-- A future takes at least as long as its first part. -/
theorem elapsed_le_bind (p : Timed α) (f : α → Timed β) : p.elapsed ≤ (p >>= f).elapsed := by
  cases h : p.result with
  | ok a =>
    rw [bind_ok h]
    exact Nat.le_add_right _ _
  | error e =>
    exact Nat.le_of_eq (congrArg Timed.elapsed (bind_error h)).symm

/-- A future takes at least as long as its second part. -/
theorem elapsed_le_bind_of_ok (h : p.result = .ok a) : (f a).elapsed ≤ (p >>= f).elapsed := by
  rw [bind_ok h]
  exact Nat.le_add_left _ _

end Bind

/-- **A future within a limit** fails if it takes longer, or panics. -/
theorem within_eq_error_iff {limit : Nat} {p : Timed α} :
    p.within limit = .error () ↔ limit < p.elapsed ∨ p.result = .error () := by
  unfold within
  split
  · rename_i h
    exact iff_of_true rfl (Or.inl h)
  · rename_i h
    exact (or_iff_right h).symm

end Timed

end Async
