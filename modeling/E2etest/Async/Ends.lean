import E2etest.Async.Prog
import Mathlib.Data.List.Nodup
import Mathlib.Order.WellFounded

/-!
# Every schedule ends

`Chip r` is a step of a list whose entries move along `r`: one of them moves, or goes. When `r` is
well-founded on the entries, so is `Chip r` on the list (`acc_chip`).

`steps_wellFounded`: a program cannot go on forever, whatever the schedule and the answers. The
programs under way in a loop form a list that chips; the loop starts each waiting program once.

`progress`: nor can a program get stuck. It has returned, or the scheduler can move, or it awaits an
operation, with any answer.
-/

namespace Async

section Chip

variable {γ : Type*} {r : γ → γ → Prop}

/-- One entry moves, or goes. -/
inductive Chip (r : γ → γ → Prop) : List γ → List γ → Prop
  | move {l₁ l₂ : List γ} {a b : γ} (h : r b a) : Chip r (l₁ ++ b :: l₂) (l₁ ++ a :: l₂)
  | drop {l₁ l₂ : List γ} {a : γ} : Chip r (l₁ ++ l₂) (l₁ ++ a :: l₂)

/-- The head moves, or goes, or the tail chips. -/
theorem chip_cons {a : γ} {l m : List γ} (h : Chip r m (a :: l)) :
    (∃ b, r b a ∧ m = b :: l) ∨ m = l ∨ ∃ l', Chip r l' l ∧ m = a :: l' := by
  generalize hx : a :: l = x at h
  cases h with
  | @move l₁ l₂ c b h =>
    cases l₁ with
    | nil =>
      obtain ⟨rfl, rfl⟩ := List.cons.inj hx
      exact Or.inl ⟨b, h, rfl⟩
    | cons d l₁ =>
      obtain ⟨rfl, rfl⟩ := List.cons.inj hx
      exact Or.inr (Or.inr ⟨_, .move h, rfl⟩)
  | @drop l₁ l₂ c =>
    cases l₁ with
    | nil =>
      obtain ⟨rfl, rfl⟩ := List.cons.inj hx
      exact Or.inr (Or.inl rfl)
    | cons d l₁ =>
      obtain ⟨rfl, rfl⟩ := List.cons.inj hx
      exact Or.inr (Or.inr ⟨_, .drop, rfl⟩)

theorem acc_chip_nil : Acc (Chip r) [] := by
  refine .intro _ fun l h => ?_
  generalize hx : ([] : List γ) = x at h
  cases h <;> exact absurd hx (by simp)

theorem acc_chip_cons {a : γ} (ha : Acc r a) :
    ∀ {l : List γ}, Acc (Chip r) l → Acc (Chip r) (a :: l) := by
  induction ha with
  | intro a _ iha =>
    intro l hl
    induction hl with
    | intro l hl ihl =>
      refine .intro _ fun m hm => ?_
      rcases chip_cons hm with ⟨b, hb, rfl⟩ | rfl | ⟨l', hl', rfl⟩
      · exact iha b hb (.intro l hl)
      · exact .intro _ hl
      · exact ihl l' hl'

/-- **A list chips no longer than its entries move.** -/
theorem acc_chip {l : List γ} (h : ∀ a ∈ l, Acc r a) : Acc (Chip r) l := by
  induction l with
  | nil => exact acc_chip_nil
  | cons a l ih =>
    exact acc_chip_cons (h a List.mem_cons_self) (ih fun b hb => h b (List.mem_cons_of_mem a hb))

theorem chip_wellFounded (h : WellFounded r) : WellFounded (Chip r) :=
  ⟨fun _ => acc_chip fun a _ => h.apply a⟩

/-- The images of a list chip when that of one entry moves. -/
theorem chip_map {δ : Type*} {f f' : δ → γ} {l : List δ} {x : δ} (hl : l.Nodup) (hx : x ∈ l)
    (hlt : r (f' x) (f x)) (hne : ∀ y, y ≠ x → f' y = f y) : Chip r (l.map f') (l.map f) := by
  obtain ⟨l₁, l₂, rfl⟩ := List.append_of_mem hx
  have hnot : x ∉ l₁ ∧ x ∉ l₂ := by
    rw [List.nodup_middle, List.nodup_cons, List.mem_append, not_or] at hl
    exact hl.1
  have hmap : ∀ {l : List δ}, x ∉ l → l.map f' = l.map f := fun hno =>
    List.map_congr_left fun y hy => hne y fun he => hno (he ▸ hy)
  rw [List.map_append, List.map_append, List.map_cons, List.map_cons, hmap hnot.1, hmap hnot.2]
  exact .move hlt

/-- What is left of the entries of a list that chips moves no longer than they do. -/
theorem Chip.forall_acc {l m : List γ} (h : Chip r m l) (hl : ∀ a ∈ l, Acc r a) :
    ∀ a ∈ m, Acc r a := by
  cases h with
  | @move l₁ l₂ a b hb =>
    intro c hc
    rcases List.mem_append.mp hc with hc | hc
    · exact hl c (List.mem_append_left _ hc)
    · rcases List.mem_cons.mp hc with rfl | hc
      · exact (hl a (List.mem_append_right _ List.mem_cons_self)).inv hb
      · exact hl c (List.mem_append_right _ (List.mem_cons_of_mem a hc))
  | @drop l₁ l₂ a =>
    intro c hc
    rcases List.mem_append.mp hc with hc | hc
    · exact hl c (List.mem_append_left _ hc)
    · exact hl c (List.mem_append_right _ (List.mem_cons_of_mem a hc))

/-- **A sequence that goes down, or stands still with `quiet` steps only**, is quiet in the end. -/
theorem eventually_quiet (h : WellFounded r) {μ : Nat → γ} {quiet : Nat → Prop}
    (hμ : ∀ i, r (μ (i + 1)) (μ i) ∨ μ (i + 1) = μ i ∧ quiet i) : ∃ k, ∀ i, k ≤ i → quiet i := by
  obtain ⟨-, ⟨k, rfl⟩, hmin⟩ := h.has_min (Set.range μ) ⟨μ 0, 0, rfl⟩
  have hstep : ∀ i, μ i = μ k → μ (i + 1) = μ k ∧ quiet i := by
    intro i hi
    rcases hμ i with hlt | ⟨heq, hq⟩
    · rw [hi] at hlt
      exact absurd hlt (hmin _ ⟨i + 1, rfl⟩)
    · exact ⟨heq.trans hi, hq⟩
  have hsame : ∀ j, μ (k + j) = μ k := by
    intro j
    induction j with
    | zero => rfl
    | succ j ih => exact (hstep _ ih).1
  refine ⟨k, fun i hi => ?_⟩
  obtain ⟨j, rfl⟩ := Nat.exists_eq_add_of_le hi
  exact (hstep _ (hsame j)).2

end Chip

namespace Prog

variable {E : Type} {R : E → Type} {α : Type}

/-- The second program steps to the first one. -/
def After (q p : Prog E R α) : Prop := ∃ c, Step p c q

/-- A loop ends when its programs do, and what follows it. -/
theorem acc_forEach {n : Nat} {k : Prog E R α} (hk : Acc After k) :
    ∀ {ws rs : List (Prog E R Unit)}, (∀ p ∈ ws, Acc After p) → (∀ p ∈ rs, Acc After p) →
      Acc After (.forEach n rs ws k) := by
  intro ws
  induction ws with
  | nil =>
    intro rs _ hrs
    -- nothing is left to start: the list of the programs under way chips
    have hchip := acc_chip hrs
    induction hchip with
    | intro rs _ ih =>
      refine .intro _ fun q hq => ?_
      obtain ⟨c, hq⟩ := hq
      cases hq with
      | run h => exact ih _ (.move ⟨c, h⟩) ((Chip.move ⟨c, h⟩).forall_acc hrs)
      | finish => exact ih _ .drop (Chip.drop.forall_acc hrs)
      | join => exact hk
  | cons w ws ihw =>
    intro rs hws hrs
    have hchip := acc_chip hrs
    induction hchip with
    | intro rs _ ih =>
      refine .intro _ fun q hq => ?_
      obtain ⟨c, hq⟩ := hq
      cases hq with
      | start _ =>
        refine ihw (fun p hp => hws p (List.mem_cons_of_mem w hp)) fun p hp => ?_
        rcases List.mem_append.mp hp with hp | hp
        · exact hrs p hp
        · rw [List.mem_singleton.mp hp]
          exact hws w List.mem_cons_self
      | run h => exact ih _ (.move ⟨c, h⟩) ((Chip.move ⟨c, h⟩).forall_acc hrs)
      | finish => exact ih _ .drop (Chip.drop.forall_acc hrs)

mutual

theorem acc_after : ∀ {α : Type} (p : Prog E R α), Acc After p
  | _, .pure _ => .intro _ fun _ ⟨_, h⟩ => absurd h not_step_pure
  | _, .op e k => .intro _ fun _ ⟨_, h⟩ => by
    obtain ⟨r, -, rfl⟩ := step_op h
    exact acc_after (k r)
  | _, .forEach _ rs ws k => acc_forEach (acc_after k) (acc_after_list ws) (acc_after_list rs)

theorem acc_after_list : ∀ (ps : List (Prog E R Unit)), ∀ p ∈ ps, Acc After p
  | [] => fun _ h => absurd h List.not_mem_nil
  | q :: ps => List.forall_mem_cons.mpr ⟨acc_after q, acc_after_list ps⟩

end

/-- **Every schedule ends**, whatever the answers. -/
theorem steps_wellFounded : WellFounded (After (E := E) (R := R) (α := α)) := ⟨acc_after⟩

/-- **No schedule gets stuck**: a program has returned, can be moved, or awaits an answer. -/
theorem progress : ∀ {α : Type} (p : Prog E R α), (∃ a, p = .pure a) ∨ (∃ q, Step p none q) ∨
    ∃ e, ∀ r, ∃ q, Step p (some ⟨e, r⟩) q
  | _, .pure a => Or.inl ⟨a, rfl⟩
  | _, .op e k => Or.inr (Or.inr ⟨e, fun r => ⟨k r, .op e k r⟩⟩)
  | _, .forEach _ [] [] k => Or.inr (Or.inl ⟨k, .join⟩)
  | _, .forEach n [] (w :: ws) k => by
    refine Or.inr (Or.inl ⟨.forEach n [w] ws k, .start ?_⟩)
    rw [List.length_nil]
    omega
  | _, .forEach n (p :: rs) ws k => by
    -- the first round goes on
    have hrun {c q} (hq : Step p c q) :
        Step (.forEach n ([] ++ p :: rs) ws k) c (.forEach n ([] ++ q :: rs) ws k) := .run hq
    have hfinish : Step (.forEach n ([] ++ .pure () :: rs) ws k) none
        (.forEach n ([] ++ rs) ws k) := .finish
    rcases progress p with ⟨⟨⟩, rfl⟩ | ⟨q, hq⟩ | ⟨e, he⟩
    · exact Or.inr (Or.inl ⟨.forEach n rs ws k, hfinish⟩)
    · exact Or.inr (Or.inl ⟨.forEach n (q :: rs) ws k, hrun hq⟩)
    · refine Or.inr (Or.inr ⟨e, fun r => ?_⟩)
      obtain ⟨q, hq⟩ := he r
      exact ⟨.forEach n (q :: rs) ws k, hrun hq⟩

end Prog

end Async
