import E2etest.Async.Prog
import Mathlib.Data.List.Forall2

/-!
# Complete executions

`Completes p t a`: some schedule and some answers let `p` return `a`, and `t` lists the answered
operations. The lemmas below read `Completes` off the shape of the program: a sequence completes
in two consecutive words (`completes_bind`), a concurrent loop in a bounded interleaving of its
programs' words (`completes_forEachConcurrent`), a sequential loop in their concatenation
(`completes_forEachSeq`).

`Exec.extends`: every execution is a prefix of a complete one, as soon as every operation has an
answer. A property of words that is inherited by prefixes therefore holds of every execution once
it holds of the complete ones.
-/

namespace Async

namespace Prog

variable {E : Type} {R : E → Type} {α β : Type}

/-- Some schedule and some answers let `p` return `a`. -/
def Completes (p : Prog E R α) (t : List (Call E R)) (a : α) : Prop := Exec p t (.pure a)

theorem completes_pure {a b : α} {t : List (Call E R)} :
    Completes (.pure a : Prog E R α) t b ↔ t = [] ∧ b = a := by
  constructor
  · intro h
    obtain ⟨rfl, hb⟩ := exec_pure h
    cases hb
    exact ⟨rfl, rfl⟩
  · rintro ⟨rfl, rfl⟩
    exact .refl _

theorem completes_op {e : E} {k : R e → Prog E R α} {t : List (Call E R)} {a : α} :
    Completes (.op e k) t a ↔ ∃ r s, t = ⟨e, r⟩ :: s ∧ Completes (k r) s a := by
  constructor
  · intro h
    cases h with
    | head hs ht =>
      obtain ⟨r, rfl, rfl⟩ := step_op hs
      exact ⟨r, _, rfl, ht⟩
  · rintro ⟨r, s, rfl, h⟩
    exact .head (.op e k r) h

theorem completes_await {e : E} {t : List (Call E R)} {r : R e} :
    Completes (await e) t r ↔ t = [⟨e, r⟩] := by
  simp only [await, completes_op, completes_pure]
  constructor
  · rintro ⟨r', s, rfl, rfl, rfl⟩
    rfl
  · rintro rfl
    exact ⟨r, [], rfl, rfl, rfl⟩

theorem exec_bind {p : Prog E R α} {f : α → Prog E R β} {t : List (Call E R)} {q : Prog E R β}
    (h : Exec (p.bind f) t q) :
    (∃ p', Exec p t p' ∧ q = p'.bind f) ∨
      ∃ t₁ a t₂, t = t₁ ++ t₂ ∧ Completes p t₁ a ∧ Exec (f a) t₂ q := by
  generalize hb : p.bind f = b at h
  induction h generalizing p with
  | refl => exact Or.inl ⟨p, .refl p, hb.symm⟩
  | @head _ _ _ c t hs ht ih =>
    subst hb
    rcases step_bind hs with ⟨a, rfl, hs⟩ | ⟨p', hs', rfl⟩
    · exact Or.inr ⟨[], a, _, rfl, .refl _, .head hs ht⟩
    · rcases ih rfl with ⟨p'', hp, rfl⟩ | ⟨t₁, a, t₂, rfl, h₁, h₂⟩
      · exact Or.inl ⟨p'', .head hs' hp, rfl⟩
      · exact Or.inr ⟨c.toList ++ t₁, a, t₂, by simp, .head hs' h₁, h₂⟩

/-- **A sequence completes in two consecutive words.** -/
theorem completes_bind {p : Prog E R α} {f : α → Prog E R β} {t : List (Call E R)} {b : β} :
    Completes (p.bind f) t b ↔
      ∃ t₁ a t₂, t = t₁ ++ t₂ ∧ Completes p t₁ a ∧ Completes (f a) t₂ b := by
  constructor
  · intro h
    rcases exec_bind h with ⟨p', hp, hq⟩ | h
    · cases p' with
      | pure a => exact ⟨t, a, [], by simp, hp, by rw [pure_bind] at hq; rw [← hq]; exact .refl _⟩
      | op e k => exact absurd hq (by simp)
      | forEach n rs ws k => exact absurd hq (by simp [Prog.bind])
    · exact h
  · rintro ⟨t₁, a, t₂, rfl, h₁, h₂⟩
    exact (Exec.bind h₁ f).trans h₂

/-! ## Loops -/

theorem forall₂_append_left {γ δ : Type*} {Q : γ → δ → Prop} :
    ∀ {l₁ l₂ : List γ} {m : List δ}, List.Forall₂ Q (l₁ ++ l₂) m →
      ∃ m₁ m₂, m = m₁ ++ m₂ ∧ List.Forall₂ Q l₁ m₁ ∧ List.Forall₂ Q l₂ m₂
  | [], _, m, h => ⟨[], m, rfl, .nil, h⟩
  | _ :: _, _, _, .cons hx h => by
    obtain ⟨m₁, m₂, rfl, h₁, h₂⟩ := forall₂_append_left h
    exact ⟨_ :: m₁, m₂, rfl, .cons hx h₁, h₂⟩

theorem forall₂_mem_right {γ δ : Type*} {Q : γ → δ → Prop} {l : List γ} {m : List δ}
    (h : List.Forall₂ Q l m) : ∀ b ∈ m, ∃ a ∈ l, Q a b := by
  induction h with
  | nil => simp
  | cons hq _ ih =>
    refine List.forall_mem_cons.mpr ⟨⟨_, List.mem_cons_self, hq⟩, fun b hb => ?_⟩
    obtain ⟨a, ha, hab⟩ := ih b hb
    exact ⟨a, List.mem_cons_of_mem _ ha, hab⟩

/-- The words `ls` are complete words of the programs `ps`, one each. -/
abbrev CompleteAll (ps : List (Prog E R Unit)) (ls : List (List (Call E R))) : Prop :=
  List.Forall₂ (fun p l => Completes p l ()) ps ls

/-- A concurrent loop under way completes in an interleaving of what its programs have left. -/
theorem completes_forEach {n : Nat} {rs ws : List (Prog E R Unit)} {k : Prog E R α}
    {t : List (Call E R)} {a : α} (h : Completes (.forEach n rs ws k) t a) :
    ∃ lr lw t₁ t₂, t = t₁ ++ t₂ ∧ CompleteAll rs lr ∧ CompleteAll ws lw ∧
      Interleave n lr lw t₁ ∧ Completes k t₂ a := by
  unfold Completes at h
  generalize hp : Prog.forEach n rs ws k = p at h
  generalize hq : Prog.pure a = q at h
  induction h generalizing rs ws with
  | refl => subst hq; cases hp
  | @head _ _ _ c t hs ht ih =>
    subst hp
    cases hs with
    | start hn =>
      obtain ⟨lr, lw, t₁, t₂, rfl, hr, hw, hi, hk⟩ := ih rfl hq
      obtain ⟨l₁, l₂, rfl, h₁, h₂⟩ := forall₂_append_left hr
      obtain ⟨l, _, hl, hnil, rfl⟩ := List.forall₂_cons_left_iff.mp h₂
      obtain rfl := List.forall₂_nil_left_iff.mp hnil
      refine ⟨l₁, l :: lw, t₁, t₂, rfl, h₁, .cons hl hw, .start ?_ hi, hk⟩
      rwa [← h₁.length_eq]
    | run h =>
      obtain ⟨lr, lw, t₁, t₂, rfl, hr, hw, hi, hk⟩ := ih rfl hq
      obtain ⟨l₁, l₂, rfl, h₁, h₂⟩ := forall₂_append_left hr
      obtain ⟨l, l₃, hl, h₃, rfl⟩ := List.forall₂_cons_left_iff.mp h₂
      refine ⟨l₁ ++ (c.toList ++ l) :: l₃, lw, c.toList ++ t₁, t₂, by simp,
        List.rel_append h₁ (.cons (.head h hl) h₃), hw, ?_, hk⟩
      cases c with
      | none => exact hi
      | some c => exact .emit hi
    | finish =>
      obtain ⟨lr, lw, t₁, t₂, rfl, hr, hw, hi, hk⟩ := ih rfl hq
      obtain ⟨l₁, l₂, rfl, h₁, h₂⟩ := forall₂_append_left hr
      exact ⟨l₁ ++ [] :: l₂, lw, t₁, t₂, rfl, List.rel_append h₁ (.cons (.refl _) h₂), hw,
        .finish hi, hk⟩
    | join => exact ⟨[], [], [], t, by simp, .nil, .nil, .nil, by subst hq; exact ht⟩

/-- **A concurrent loop completes in a bounded interleaving** of complete words of its programs. -/
theorem completes_forEachConcurrent {n : Nat} {ws : List (Prog E R Unit)} {t : List (Call E R)}
    (h : Completes (forEachConcurrent n ws) t ()) :
    ∃ ls, CompleteAll ws ls ∧ Interleave n [] ls t := by
  obtain ⟨lr, ls, t₁, t₂, rfl, hr, hw, hi, hk⟩ := completes_forEach h
  obtain rfl := List.forall₂_nil_left_iff.mp hr
  obtain ⟨rfl, -⟩ := completes_pure.mp hk
  exact ⟨ls, hw, by simpa using hi⟩

/-- **A sequential loop completes in a concatenation** of complete words of its programs. -/
theorem completes_forEachSeq {ws : List (Prog E R Unit)} {t : List (Call E R)} :
    Completes (forEachSeq ws) t () ↔ ∃ ls, CompleteAll ws ls ∧ t = ls.flatten := by
  induction ws generalizing t with
  | nil => simp [forEachSeq, completes_pure]
  | cons w ws ih =>
    simp only [forEachSeq, completes_bind]
    constructor
    · rintro ⟨t₁, u, t₂, rfl, h₁, h₂⟩
      obtain ⟨ls, hls, rfl⟩ := ih.mp h₂
      exact ⟨t₁ :: ls, .cons h₁ hls, rfl⟩
    · rintro ⟨_, hls, rfl⟩
      obtain ⟨l, ls, hl, hls', rfl⟩ := List.forall₂_cons_left_iff.mp hls
      exact ⟨l, (), ls.flatten, rfl, hl, ih.mpr ⟨ls, hls', rfl⟩⟩

/-! ## Every execution can be completed -/

/-- The programs under way can be run to their end, one after the other. -/
theorem exec_running {n : Nat} {w : List (Prog E R Unit)} {k : Prog E R α} :
    ∀ rs : List (Prog E R Unit), (∀ p ∈ rs, ∃ t, Completes p t ()) →
      ∃ t, Exec (.forEach n rs w k) t (.forEach n [] w k)
  | [], _ => ⟨[], .refl _⟩
  | p :: rs, h => by
    obtain ⟨t, ht⟩ := h p List.mem_cons_self
    obtain ⟨s, hs⟩ := exec_running (n := n) (w := w) (k := k) rs
      fun q hq => h q (List.mem_cons_of_mem p hq)
    have h₁ : Exec (.forEach n ([] ++ p :: rs) w k) t (.forEach n ([] ++ .pure () :: rs) w k) :=
      Exec.run ht
    have h₂ : Step (.forEach n ([] ++ .pure () :: rs) w k) none (.forEach n ([] ++ rs) w k) :=
      Step.finish
    exact ⟨t ++ s, h₁.trans (.head h₂ hs)⟩

/-- The programs waiting can be started and run to their end, one after the other. -/
theorem exec_waiting {n : Nat} {k : Prog E R α} :
    ∀ ws : List (Prog E R Unit), (∀ p ∈ ws, ∃ t, Completes p t ()) →
      ∃ t, Exec (.forEach n [] ws k) t (.forEach n [] [] k)
  | [], _ => ⟨[], .refl _⟩
  | p :: ws, h => by
    have hn : n = 0 ∨ ([] : List (Prog E R Unit)).length < n := by
      simp only [List.length_nil]
      omega
    obtain ⟨t, ht⟩ := exec_running (n := n) (w := ws) (k := k) [p]
      fun q hq => h q (by simp_all)
    obtain ⟨s, hs⟩ := exec_waiting (n := n) (k := k) ws fun q hq => h q (List.mem_cons_of_mem p hq)
    exact ⟨t ++ s, (Exec.head (.start hn) ht).trans hs⟩

mutual

/-- **Every program can be completed** when every operation has an answer. -/
theorem exists_completes (hR : ∀ e, Nonempty (R e)) :
    ∀ {α : Type} (p : Prog E R α), ∃ t a, Completes p t a
  | _, .pure a => ⟨[], a, .refl _⟩
  | _, .op e k => by
    obtain ⟨r⟩ := hR e
    obtain ⟨t, a, h⟩ := exists_completes hR (k r)
    exact ⟨_, a, completes_op.mpr ⟨r, t, rfl, h⟩⟩
  | _, .forEach n rs ws k => by
    obtain ⟨t₁, h₁⟩ := exec_running (n := n) (w := ws) (k := k) rs (exists_completes_list hR rs)
    obtain ⟨t₂, h₂⟩ := exec_waiting (n := n) (k := k) ws (exists_completes_list hR ws)
    obtain ⟨t₃, a, h₃⟩ := exists_completes hR k
    exact ⟨_, a, (h₁.trans h₂).trans (.head .join h₃)⟩

theorem exists_completes_list (hR : ∀ e, Nonempty (R e)) :
    ∀ ps : List (Prog E R Unit), ∀ p ∈ ps, ∃ t, Completes p t ()
  | [] => fun _ h => absurd h List.not_mem_nil
  | q :: ps => by
    obtain ⟨t, _, ht⟩ := exists_completes hR q
    exact List.forall_mem_cons.mpr ⟨⟨t, ht⟩, exists_completes_list hR ps⟩

end

/-- **Every execution is a prefix of a complete one.** -/
theorem Exec.extends (hR : ∀ e, Nonempty (R e)) {p q : Prog E R α} {t : List (Call E R)}
    (h : Exec p t q) : ∃ s a, Completes p (t ++ s) a := by
  obtain ⟨s, a, hs⟩ := exists_completes hR q
  exact ⟨s, a, h.trans hs⟩

end Prog

end Async
