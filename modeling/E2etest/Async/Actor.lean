import Mathlib.Data.List.Infix

/-!
# Actors

An actor owns a state, and handles the messages of its channel one after the other. `Code W α` is
what it executes: it changes a world that outlives it, and returns, or does not (`none` in the
outcome). What does not return panics, which ends the actor, drops its state and leaves the world as
it is, or waits for ever; nothing more is handled either way.

`serve` is the loop over the messages. `Always P` says that `P` holds at every message boundary, and
of the world a panic leaves behind; `Along C` that every message that is handled meets the condition
`C` in the state it is handled in. `always_iff_along` is the rule by which the condition of one step
becomes that of a run, and `always_ends_iff_along` adds what is left when the actor is gone.
`serve_isSome_iff_along` is the rule for the actor to live on, and `holds_iff_along` that for what
holds only where it has always held.
-/

namespace Async

/-- Code over the world `W`: it changes the world, and returns or does not. -/
def Code (W α : Type) : Type := W → Option α × W

namespace Code

variable {W α β : Type}

/-- `x` and then `f`, unless `x` panics. -/
def bind (x : Code W α) (f : α → Code W β) : Code W β := fun w =>
  match x w with
  | (some a, w) => f a w
  | (none, w) => (none, w)

instance : Monad (Code W) where
  pure a := fun w => (some a, w)
  bind := bind

/-- Panic. -/
def abort : Code W α := fun w => (none, w)

/-- `expect`, and `unwrap`. -/
def expect : Option α → Code W α
  | some a => pure a
  | none => abort

/-- `expect` of a result whose value is not used, and `assert!`. -/
def ensure (b : Bool) : Code W Unit := if b then pure () else abort

/-- A change of the world. -/
def update (f : W → W) : Code W Unit := fun w => (some (), f w)

@[simp] theorem pure_apply (a : α) (w : W) : (pure a : Code W α) w = (some a, w) := rfl

@[simp] theorem abort_apply (w : W) : (abort : Code W α) w = (none, w) := rfl

@[simp] theorem update_apply (f : W → W) (w : W) : update f w = (some (), f w) := rfl

@[simp] theorem expect_some (a : α) : expect (W := W) (some a) = pure a := rfl

@[simp] theorem expect_none : expect (W := W) (none : Option α) = abort := rfl

@[simp] theorem ensure_true : ensure (W := W) true = pure () := rfl

@[simp] theorem ensure_false : ensure (W := W) false = abort := rfl

theorem bind_some {x : Code W α} {f : α → Code W β} {w w' : W} {a : α} (h : x w = (some a, w')) :
    (x >>= f) w = f a w' := by
  change bind x f w = _
  unfold bind
  rw [h]

theorem bind_none {x : Code W α} {f : α → Code W β} {w w' : W} (h : x w = (none, w')) :
    (x >>= f) w = (none, w') := by
  change bind x f w = _
  unfold bind
  rw [h]

/-- `x >>= f` returns when `x` does, and then `f`. -/
theorem bind_eq_some {x : Code W α} {f : α → Code W β} {w w' : W} {b : β} :
    (x >>= f) w = (some b, w') ↔ ∃ a w₁, x w = (some a, w₁) ∧ f a w₁ = (some b, w') := by
  rcases hx : x w with ⟨_ | a, w₁⟩
  · rw [bind_none hx]
    simp
  · rw [bind_some hx]
    simp

theorem expect_eq_some {o : Option α} {a : α} {w w' : W} :
    expect o w = (some a, w') ↔ o = some a ∧ w = w' := by
  cases o with
  | none => simp
  | some b => simp [expect]

@[simp] theorem pure_bind (a : α) (f : α → Code W β) : (pure a : Code W α) >>= f = f a := rfl

@[simp] theorem abort_bind (f : α → Code W β) : (abort : Code W α) >>= f = abort := rfl

@[simp] theorem update_bind (g : W → W) (f : Unit → Code W β) (w : W) :
    (update g >>= f) w = f () (g w) := rfl

/-- What is returned does not matter to the world. -/
theorem return_snd (x : Code W α) (f : α → β) (w : W) :
    ((do return f (← x) : Code W β) w).2 = (x w).2 := by
  rcases hx : x w with ⟨_ | a, w'⟩
  · rw [bind_none hx]
  · rw [bind_some hx]
    rfl

theorem map_id' (x : Code W α) : id <$> x = x := by
  funext w
  change bind x (fun a => pure a) w = x w
  rcases h : x w with ⟨_ | a, w'⟩ <;> simp [bind, h]

theorem bind_bind {γ : Type} (x : Code W α) (f : α → Code W β) (g : β → Code W γ) :
    x >>= f >>= g = x >>= fun a => f a >>= g := by
  funext w
  change bind (bind x f) g w = bind x (fun a => bind (f a) g) w
  rcases h : x w with ⟨_ | a, w'⟩ <;> simp [bind, h]

instance : LawfulMonad (Code W) := LawfulMonad.mk' _ map_id' (fun _ _ => rfl) bind_bind

/-- An answer that has to be received, and then the result. -/
theorem ensure_return (b : Bool) (a : α) (w : W) : (do
    ensure b
    return a : Code W α) w = (if b then some a else none, w) := by
  cases b <;> rfl

/-- An answer that has been received. -/
theorem answered_iff {b : Bool} {a a' : α} {w w' : W} :
    ((if b then some a else none, w) : Option α × W) = (some a', w') ↔
      b = true ∧ a = a' ∧ w = w' := by
  rw [Prod.mk.injEq, Option.ite_none_right_eq_some, Option.some.injEq, and_assoc]

theorem ensure_return_eq_some {b : Bool} {a a' : α} {w w' : W} : (do
    ensure b
    return a : Code W α) w = (some a', w') ↔ b = true ∧ a = a' ∧ w = w' := by
  rw [ensure_return, answered_iff]

end Code

section Serve

variable {M σ W : Type} (process : M → σ → Code W σ)

/-- `while let Some(msg) = rx.recv().await { process(msg, &mut state).await; }`. -/
def serve : List M → σ → Code W σ
  | [], s => pure s
  | m :: ms, s => do
    let s ← process m s
    serve ms s

variable {process} {m : M} {ms ns : List M} {s s' : σ} {w w' : W}

theorem serve_cons_some (h : process m s w = (some s', w')) :
    serve process (m :: ms) s w = serve process ms s' w' := Code.bind_some h

theorem serve_cons_none (h : process m s w = (none, w')) :
    serve process (m :: ms) s w = (none, w') := Code.bind_none h

theorem serve_append : serve process (ms ++ ns) s = serve process ms s >>= serve process ns := by
  induction ms generalizing s with
  | nil => rfl
  | cons m ms ih =>
    rw [List.cons_append, serve, serve, bind_assoc]
    exact congrArg (process m s >>= ·) (funext fun s => ih)

/-- What every message keeps holds as long as the actor lives. -/
theorem serve_invariant {I : σ → W → Prop}
    (hI : ∀ m s w s' w', I s w → process m s w = (some s', w') → I s' w') (h : I s w)
    (hs : serve process ms s w = (some s', w')) : I s' w' := by
  induction ms generalizing s w with
  | nil =>
    cases hs
    exact h
  | cons m ms ih =>
    rcases hp : process m s w with ⟨_ | s₁, w₁⟩
    · rw [serve_cons_none hp] at hs
      cases hs
    · rw [serve_cons_some hp] at hs
      exact ih (hI m s w s₁ w₁ h hp) hs

theorem serve_concat : serve process (ms ++ [m]) s = serve process ms s >>= process m := by
  rw [serve_append]
  exact congrArg (serve process ms s >>= ·) (funext fun s => bind_pure (process m s))

/-- What holds of the messages so far and the state they lead to. -/
theorem serve_history {H : List M → σ → W → Prop}
    (hH : ∀ ns m s₁ w₁ s' w', serve process ns s w = (some s₁, w₁) → H ns s₁ w₁ →
      process m s₁ w₁ = (some s', w') → H (ns ++ [m]) s' w')
    (h : H [] s w) (hs : serve process ms s w = (some s', w')) : H ms s' w' := by
  induction ms using List.reverseRecOn generalizing s' w' with
  | nil =>
    cases hs
    exact h
  | append_singleton ns m ih =>
    rw [serve_concat, Code.bind_eq_some] at hs
    obtain ⟨s₁, w₁, hs, hp⟩ := hs
    exact hH ns m s₁ w₁ s' w' hs (ih hs) hp

/-- What is left when, after the messages, something more is done with the state. -/
theorem serve_bind {I : σ → W → Prop} {P : Option σ → W → Prop} {R : W → Prop} {α : Type}
    {k : σ → Code W α} (hI : ∀ m s w s' w', I s w → process m s w = (some s', w') → I s' w')
    (hk : ∀ s w, I s w → P (some s) w → R (k s w).2) (hnone : ∀ w, P none w → R w) (h : I s w)
    (hP : P (serve process ms s w).1 (serve process ms s w).2) :
    R ((serve process ms s >>= k) w).2 := by
  rcases hs : serve process ms s w with ⟨_ | s', w'⟩
  · rw [hs] at hP
    rw [Code.bind_none hs]
    exact hnone w' hP
  · rw [hs] at hP
    rw [Code.bind_some hs]
    exact hk s' w' (serve_invariant hI h hs) hP

/-- `P` holds at every message boundary, and of what a panic leaves behind. -/
def Always (process : M → σ → Code W σ) (P : Option σ → W → Prop) (ms : List M) (s : σ) (w : W) :
    Prop :=
  ∀ ns, ns <+: ms → P (serve process ns s w).1 (serve process ns s w).2

/-- Every message that is handled meets `C` in the state it is handled in. Of the messages after a
panic, which nobody handles, nothing is asked. -/
def Along (process : M → σ → Code W σ) (C : M → σ → W → Prop) : List M → σ → W → Prop
  | [], _, _ => True
  | m :: ms, s, w => C m s w ∧
    match process m s w with
    | (some s, w) => Along process C ms s w
    | (none, _) => True

instance decidableAlong {C : M → σ → W → Prop} [∀ m s w, Decidable (C m s w)] :
    ∀ ms s w, Decidable (Along process C ms s w)
  | [], _, _ => inferInstanceAs (Decidable True)
  | m :: ms, s, w =>
    let rest : ∀ r : Option σ × W, Decidable (match r with
        | (some s, w) => Along process C ms s w
        | (none, _) => True)
      | (some s, w) => decidableAlong ms s w
      | (none, _) => instDecidableTrue
    @instDecidableAnd _ _ _ (rest (process m s w))

variable {P : Option σ → W → Prop} {C : M → σ → W → Prop}

theorem Always.initial (h : Always process P ms s w) : P (some s) w := h [] List.nil_prefix

theorem always_nil : Always process P [] s w ↔ P (some s) w := by
  refine ⟨Always.initial, fun h ns hns => ?_⟩
  obtain rfl := List.prefix_nil.mp hns
  exact h

theorem always_cons_some (h : process m s w = (some s', w')) :
    Always process P (m :: ms) s w ↔ P (some s) w ∧ Always process P ms s' w' := by
  constructor
  · refine fun hall => ⟨hall.initial, fun ns hns => ?_⟩
    have := hall (m :: ns) ((List.prefix_cons_inj m).mpr hns)
    rwa [serve_cons_some h] at this
  · rintro ⟨hP, hall⟩ ns hns
    cases ns with
    | nil => exact hP
    | cons n ns =>
      obtain ⟨rfl, htail⟩ := List.cons_prefix_cons.mp hns
      rw [serve_cons_some h]
      exact hall ns htail

theorem always_cons_none (h : process m s w = (none, w')) :
    Always process P (m :: ms) s w ↔ P (some s) w ∧ P none w' := by
  constructor
  · intro hall
    refine ⟨hall.initial, ?_⟩
    have := hall [m] ((List.prefix_cons_inj m).mpr List.nil_prefix)
    rwa [serve_cons_none h] at this
  · rintro ⟨hP, hdead⟩ ns hns
    cases ns with
    | nil => exact hP
    | cons n ns =>
      obtain ⟨rfl, -⟩ := List.cons_prefix_cons.mp hns
      rwa [serve_cons_none h]

/-- **The condition of a step becomes that of a run**: where, in every state with the invariant `I`
that has `P`, handling a message leaves `P` exactly when the message meets `C`, a run has `P`
throughout exactly when every message of it meets `C`. -/
theorem always_iff_along {I : σ → W → Prop}
    (hI : ∀ m s w s' w', I s w → process m s w = (some s', w') → I s' w')
    (hstep : ∀ m s w, I s w → P (some s) w →
      (P (process m s w).1 (process m s w).2 ↔ C m s w))
    (h : I s w) (hP : P (some s) w) :
    Always process P ms s w ↔ Along process C ms s w := by
  induction ms generalizing s w with
  | nil => exact iff_of_true (always_nil.mpr hP) trivial
  | cons m ms ih =>
    have hm := hstep m s w h hP
    unfold Along
    rcases hp : process m s w with ⟨_ | s', w'⟩ <;> rw [hp] at hm
    · rw [always_cons_none hp, and_iff_right hP, hm, and_true]
    · rw [always_cons_some hp, and_iff_right hP]
      constructor
      · intro hall
        exact ⟨hm.mp hall.initial, (ih (hI m s w s' w' h hp) hall.initial).mp hall⟩
      · rintro ⟨hC, hrest⟩
        exact (ih (hI m s w s' w' h hp) (hm.mpr hC)).mpr hrest

/-- **What is left behind** by a run whose messages meet `C`: where `P` gives `R` after a message
`halt` and at the end of the actor, such a run leaves `R` after each of them. -/
theorem always_ends_iff_along {I : σ → W → Prop} {R : W → Prop} {T α : Type} {halt : T → M}
    {stop : σ → Code W α}
    (hI : ∀ m s w s' w', I s w → process m s w = (some s', w') → I s' w')
    (hstep : ∀ m s w, I s w → P (some s) w →
      (P (process m s w).1 (process m s w).2 ↔ C m s w))
    (hnone : ∀ w, P none w → R w)
    (hhalt : ∀ t s w, I s w → P (some s) w → R (process (halt t) s w).2)
    (hstop : ∀ s w, I s w → P (some s) w → R (stop s w).2)
    (h : I s w) (hP : P (some s) w) :
    (Always process P ms s w ∧
      (∀ ns t, ns ++ [halt t] <+: ms → R (serve process (ns ++ [halt t]) s w).2) ∧
      R ((serve process ms s >>= stop) w).2) ↔ Along process C ms s w := by
  rw [← always_iff_along hI hstep h hP]
  refine ⟨And.left, fun hall => ⟨hall, fun ns t hns => ?_, ?_⟩⟩
  · rw [serve_concat]
    exact serve_bind hI (hhalt t) hnone h (hall ns ((List.prefix_append ns _).trans hns))
  · exact serve_bind hI hstop hnone h (hall ms List.prefix_rfl)

/-- Where two conditions are the same in the states with the invariant `I`, they are of a run. -/
theorem along_congr {D : M → σ → W → Prop} {I : σ → W → Prop}
    (hI : ∀ m s w s' w', I s w → process m s w = (some s', w') → I s' w')
    (hCD : ∀ m s w, I s w → (C m s w ↔ D m s w)) (h : I s w) :
    Along process C ms s w ↔ Along process D ms s w := by
  induction ms generalizing s w with
  | nil => exact Iff.rfl
  | cons m ms ih =>
    unfold Along
    rw [hCD m s w h]
    refine and_congr_right fun _ => ?_
    rcases hp : process m s w with ⟨_ | s', w'⟩
    · exact Iff.rfl
    · exact ih (hI m s w s' w' h hp)

/-- **What every message keeps where it meets `C`** holds at the boundary after `ns`, from where the
messages that follow meet `C` too. -/
theorem Along.serve_invariant {I : σ → W → Prop}
    (hI : ∀ m s w s' w', I s w → C m s w → process m s w = (some s', w') → I s' w')
    (hC : Along process C (ns ++ ms) s w) (h : I s w) (hs : serve process ns s w = (some s', w')) :
    I s' w' ∧ Along process C ms s' w' := by
  induction ns generalizing s w with
  | nil =>
    cases hs
    exact ⟨h, hC⟩
  | cons n ns ih =>
    obtain ⟨hn, hrest⟩ := hC
    rcases hp : process n s w with ⟨_ | s₁, w₁⟩
    · rw [serve_cons_none hp] at hs
      cases hs
    · rw [serve_cons_some hp] at hs
      rw [hp] at hrest
      exact ih hrest (hI n s w s₁ w₁ h hn hp) hs

/-- **The actor lives on** exactly when every message meets what it takes to return. -/
theorem serve_isSome_iff_along {I : σ → W → Prop}
    (hI : ∀ m s w s' w', I s w → process m s w = (some s', w') → I s' w')
    (hC : ∀ m s w, I s w → ((process m s w).1.isSome ↔ C m s w)) (h : I s w) :
    (serve process ms s w).1.isSome ↔ Along process C ms s w := by
  induction ms generalizing s w with
  | nil => exact iff_of_true rfl trivial
  | cons m ms ih =>
    have hm := hC m s w h
    unfold Along
    rcases hp : process m s w with ⟨_ | s', w'⟩
    · rw [hp] at hm
      rw [serve_cons_none hp, ← hm, and_true]
    · rw [hp] at hm
      rw [serve_cons_some hp, ih (hI m s w s' w' h hp), ← hm]
      exact (and_iff_right rfl).symm

/-- **What holds after a message just where it held before and the message meets `C`** holds after a
run just where it held before and every message meets `C`. -/
theorem holds_iff_along {I Q : σ → W → Prop}
    (hI : ∀ m s w s' w', I s w → process m s w = (some s', w') → I s' w')
    (hQ : ∀ m s w s' w', I s w → process m s w = (some s', w') → (Q s' w' ↔ Q s w ∧ C m s w))
    (h : I s w) (hs : serve process ms s w = (some s', w')) :
    Q s' w' ↔ Q s w ∧ Along process C ms s w := by
  induction ms generalizing s w with
  | nil =>
    cases hs
    exact (and_iff_left trivial).symm
  | cons m ms ih =>
    unfold Along
    rcases hp : process m s w with ⟨_ | s₁, w₁⟩
    · rw [serve_cons_none hp] at hs
      cases hs
    · rw [serve_cons_some hp] at hs
      rw [ih (hI m s w s₁ w₁ h hp) hs, hQ m s w s₁ w₁ h hp, and_assoc]

/-- An actor that is alive was alive before. -/
theorem serve_isSome_of_prefix (hns : ns <+: ms) (h : (serve process ms s w).1.isSome) :
    (serve process ns s w).1.isSome := by
  obtain ⟨us, rfl⟩ := hns
  rw [serve_append] at h
  rcases hs : serve process ns s w with ⟨_ | s', w'⟩
  · rw [Code.bind_none hs] at h
    cases h
  · rfl

theorem Along.left (h : Along process C (ns ++ ms) s w) : Along process C ns s w := by
  induction ns generalizing s w with
  | nil => trivial
  | cons n ns ih =>
    obtain ⟨hn, hrest⟩ := h
    refine ⟨hn, ?_⟩
    rcases hp : process n s w with ⟨_ | s₁, w₁⟩
    · trivial
    · rw [hp] at hrest
      exact ih hrest

end Serve

end Async
