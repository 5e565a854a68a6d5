/-!
# A cell that many write and read back

Agents share one cell. An agent writes its own mark into it, and later reads the cell to find what it
has written; between the two others may write. `readings` is what the reads of a log find.

* `Paired`: every agent reads once after each of its writes, and writes again only then.
* `own_readings_iff`: in such a log every agent finds its own mark if and only if nobody else writes
  between a write and the read that belongs to it.
-/

namespace Async

/-- A use of the cell. -/
inductive Access (α : Type)
  | write (a : α)
  | read (a : α)
  deriving DecidableEq, Repr

namespace Cell

variable {α : Type}

/-- What is in the cell after some uses. -/
def after : Option α → List (Access α) → Option α
  | c, [] => c
  | _, .write a :: l => after (some a) l
  | c, .read _ :: l => after c l

/-- Who reads, and what is found. -/
def readings : Option α → List (Access α) → List (α × Option α)
  | _, [] => []
  | _, .write a :: l => readings (some a) l
  | c, .read a :: l => (a, c) :: readings c l

/-- The agent has written and not read since. -/
def Owes (a : α) (l : List (Access α)) : Prop :=
  ∃ u v, l = u ++ .write a :: v ∧ .read a ∉ v

/-- Nobody else writes between a write and the read that belongs to it. -/
def Undisturbed (l : List (Access α)) : Prop :=
  ∀ a u v z, l = u ++ .write a :: (v ++ .read a :: z) → .read a ∉ v → ∀ b, .write b ∈ v → b = a

/-- Each agent writes and reads in turn. -/
inductive Paired : List (Access α) → Prop
  | nil : Paired []
  | write {l : List (Access α)} {a : α} (h : Paired l) (ha : ¬ Owes a l) : Paired (l ++ [.write a])
  | read {l : List (Access α)} {a : α} (h : Paired l) (ha : Owes a l) : Paired (l ++ [.read a])

theorem after_append (c : Option α) (l l' : List (Access α)) :
    after c (l ++ l') = after (after c l) l' := by
  induction l generalizing c with
  | nil => rfl
  | cons e l ih =>
    cases e with
    | write a => exact ih (some a)
    | read a => exact ih c

theorem readings_append (c : Option α) (l l' : List (Access α)) :
    readings c (l ++ l') = readings c l ++ readings (after c l) l' := by
  induction l generalizing c with
  | nil => rfl
  | cons e l ih =>
    cases e with
    | write a => exact ih (some a)
    | read a => exact congrArg _ (ih c)

theorem after_of_not_written {c : Option α} {l : List (Access α)} (h : ∀ b, .write b ∉ l) :
    after c l = c := by
  induction l with
  | nil => rfl
  | cons e l ih =>
    cases e with
    | write a => exact absurd List.mem_cons_self (h a)
    | read a => exact ih fun b hb => h b (List.mem_cons_of_mem _ hb)

/-- Once written, the cell holds one of the marks. -/
theorem exists_after_of_written {c : Option α} {l : List (Access α)} {b : α} (h : .write b ∈ l) :
    ∃ a, .write a ∈ l ∧ after c l = some a := by
  induction l generalizing b c with
  | nil => cases h
  | cons e l ih =>
    cases e with
    | read a =>
      have hb : Access.write b ∈ l := (List.mem_cons.mp h).resolve_left fun he => nomatch he
      obtain ⟨d, hd, he⟩ := ih (c := c) hb
      exact ⟨d, List.mem_cons_of_mem _ hd, he⟩
    | write a =>
      by_cases hl : ∃ b, Access.write b ∈ l
      · obtain ⟨b', hb'⟩ := hl
        obtain ⟨d, hd, he⟩ := ih (c := some a) hb'
        exact ⟨d, List.mem_cons_of_mem _ hd, he⟩
      · exact ⟨a, List.mem_cons_self, after_of_not_written fun b' hb' => hl ⟨b', hb'⟩⟩

/-- Where one element of a log with one more stands. -/
theorem concat_eq_append_cons {β : Type} {l u v : List β} {x y : β} :
    l ++ [x] = u ++ y :: v ↔ (v = [] ∧ l = u ∧ x = y) ∨ ∃ v', v = v' ++ [x] ∧ l = u ++ y :: v' := by
  constructor
  · intro h
    rcases List.eq_nil_or_concat v with rfl | ⟨v', z, rfl⟩
    · obtain ⟨hl, hx⟩ := List.append_inj' h rfl
      exact Or.inl ⟨rfl, hl, List.singleton_inj.mp hx⟩
    · rw [List.concat_eq_append, ← List.cons_append, ← List.append_assoc] at h
      obtain ⟨hl, hx⟩ := List.append_inj' h rfl
      obtain rfl := List.singleton_inj.mp hx
      exact Or.inr ⟨v', List.concat_eq_append, hl⟩
  · rintro (⟨rfl, rfl, rfl⟩ | ⟨v', rfl, rfl⟩)
    · rfl
    · rw [List.append_assoc, List.cons_append]

section Snoc

variable {l : List (Access α)} {a b : α}

theorem not_owes_nil : ¬ Owes a ([] : List (Access α)) := by
  rintro ⟨u, v, h, -⟩
  exact List.append_ne_nil_of_right_ne_nil u (List.cons_ne_nil _ v) h.symm

theorem owes_write : Owes a (l ++ [.write b]) ↔ b = a ∨ Owes a l := by
  unfold Owes
  constructor
  · rintro ⟨u, v, h, hv⟩
    rcases concat_eq_append_cons.mp h with ⟨rfl, rfl, he⟩ | ⟨v', rfl, rfl⟩
    · exact Or.inl (Access.write.inj he)
    · exact Or.inr ⟨u, v', rfl, fun hm => hv (List.mem_append_left _ hm)⟩
  · rintro (rfl | ⟨u, v, rfl, hv⟩)
    · exact ⟨l, [], rfl, List.not_mem_nil⟩
    · refine ⟨u, v ++ [.write b], by simp, fun hm => hv ?_⟩
      exact (List.mem_append.mp hm).resolve_right fun h => nomatch List.mem_singleton.mp h

theorem owes_read : Owes a (l ++ [.read b]) ↔ b ≠ a ∧ Owes a l := by
  unfold Owes
  constructor
  · rintro ⟨u, v, h, hv⟩
    rcases concat_eq_append_cons.mp h with ⟨rfl, rfl, he⟩ | ⟨v', rfl, rfl⟩
    · cases he
    · refine ⟨?_, u, v', rfl, fun hm => hv (List.mem_append_left _ hm)⟩
      rintro rfl
      exact hv (List.mem_append_right _ List.mem_cons_self)
  · rintro ⟨hne, u, v, rfl, hv⟩
    refine ⟨u, v ++ [.read b], by simp, fun hm => ?_⟩
    rcases List.mem_append.mp hm with hm | hm
    · exact hv hm
    · exact hne (Access.read.inj (List.mem_singleton.mp hm)).symm

/-- An agent that owes a read has written once since its last one. -/
theorem Paired.not_written_again (h : Paired l) {u v : List (Access α)}
    (hl : l = u ++ .write a :: v) (hv : .read a ∉ v) : .write a ∉ v := by
  induction h generalizing v with
  | nil => exact absurd hl.symm (List.append_ne_nil_of_right_ne_nil u (List.cons_ne_nil _ v))
  | @write l b _ hb ih =>
    rcases concat_eq_append_cons.mp hl with ⟨rfl, -, -⟩ | ⟨v', rfl, rfl⟩
    · exact List.not_mem_nil
    · have hread : Access.read a ∉ v' := fun hm => hv (List.mem_append_left _ hm)
      intro hm
      rcases List.mem_append.mp hm with hm | hm
      · exact ih rfl hread hm
      · obtain rfl : a = b := Access.write.inj (List.mem_singleton.mp hm)
        exact hb ⟨u, v', rfl, hread⟩
  | @read l b _ _ ih =>
    rcases concat_eq_append_cons.mp hl with ⟨rfl, -, -⟩ | ⟨v', rfl, rfl⟩
    · exact List.not_mem_nil
    · intro hm
      rcases List.mem_append.mp hm with hm | hm
      · exact ih rfl (fun h => hv (List.mem_append_left _ h)) hm
      · cases List.mem_singleton.mp hm

/-- **An agent that owes a read finds its own mark** if nobody has written after it, and only then. -/
theorem Paired.after_eq_iff (h : Paired l) (ha : Owes a l) : after none l = some a ↔
    ∀ u v, l = u ++ .write a :: v → .read a ∉ v → ∀ b, .write b ∈ v → b = a := by
  have hsplit : ∀ u v, l = u ++ .write a :: v → after none l = after (some a) v := by
    rintro u v rfl
    rw [after_append]
    rfl
  constructor
  · intro hown u v hl hv b hb
    obtain ⟨c, hc, he⟩ := exists_after_of_written (c := some a) hb
    rw [hsplit u v hl, he] at hown
    obtain rfl := Option.some.inj hown
    exact absurd hc (h.not_written_again hl hv)
  · intro hothers
    obtain ⟨u, v, hl, hv⟩ := ha
    rw [hsplit u v hl]
    refine after_of_not_written fun b hb => ?_
    obtain rfl := hothers u v hl hv b hb
    exact h.not_written_again hl hv hb

theorem undisturbed_nil : Undisturbed ([] : List (Access α)) := by
  intro a u v z h
  exact absurd h.symm (List.append_ne_nil_of_right_ne_nil u (List.cons_ne_nil _ _))

theorem undisturbed_write : Undisturbed (l ++ [.write b]) ↔ Undisturbed l := by
  unfold Undisturbed
  constructor
  · rintro h a u v z rfl hv
    exact h a u v (z ++ [.write b]) (by simp) hv
  · intro h a u v z hl hv
    rcases concat_eq_append_cons.mp hl with ⟨hnil, -, -⟩ | ⟨w, hw, rfl⟩
    · exact absurd hnil (List.append_ne_nil_of_right_ne_nil v (List.cons_ne_nil _ z))
    · rcases concat_eq_append_cons.mp hw.symm with ⟨-, -, he⟩ | ⟨z', rfl, rfl⟩
      · cases he
      · exact h a u v z' rfl hv

theorem undisturbed_read : Undisturbed (l ++ [.read b]) ↔ Undisturbed l ∧
    ∀ u v, l = u ++ .write b :: v → .read b ∉ v → ∀ c, .write c ∈ v → c = b := by
  unfold Undisturbed
  constructor
  · intro h
    refine ⟨?_, ?_⟩
    · rintro a u v z rfl hv
      exact h a u v (z ++ [.read b]) (by simp) hv
    · rintro u v rfl hv
      exact h b u v [] (by simp) hv
  · rintro ⟨h, hlast⟩ a u v z hl hv
    rcases concat_eq_append_cons.mp hl with ⟨hnil, -, -⟩ | ⟨w, hw, rfl⟩
    · exact absurd hnil (List.append_ne_nil_of_right_ne_nil v (List.cons_ne_nil _ z))
    · rcases concat_eq_append_cons.mp hw.symm with ⟨rfl, rfl, he⟩ | ⟨z', rfl, rfl⟩
      · obtain rfl := Access.read.inj he
        exact hlast u w rfl hv
      · exact h a u v z' rfl hv

/-- **Every agent finds its own mark** if and only if nobody else writes between a write and the read
that belongs to it. -/
theorem own_readings_iff (h : Paired l) :
    (∀ a found, (a, found) ∈ readings none l → found = some a) ↔ Undisturbed l := by
  induction h with
  | nil => exact ⟨fun _ => undisturbed_nil, fun _ a found hm => absurd hm List.not_mem_nil⟩
  | @write l b _ _ ih =>
    have hsame : readings none (l ++ [.write b]) = readings none l := by
      rw [readings_append]
      exact List.append_nil _
    rw [hsame, undisturbed_write, ih]
  | @read l b hl hb ih =>
    have hmore : readings none (l ++ [.read b]) = readings none l ++ [(b, after none l)] :=
      readings_append none l [.read b]
    rw [undisturbed_read, ← ih, ← hl.after_eq_iff hb, hmore]
    constructor
    · intro hall
      exact ⟨fun a found hm => hall a found (List.mem_append_left _ hm),
        hall b _ (List.mem_append_right _ List.mem_cons_self)⟩
    · rintro ⟨hall, hown⟩ a found hm
      rcases List.mem_append.mp hm with hm | hm
      · exact hall a found hm
      · obtain ⟨rfl, rfl⟩ := Prod.mk.inj (List.mem_singleton.mp hm)
        exact hown

end Snoc

end Cell

end Async
