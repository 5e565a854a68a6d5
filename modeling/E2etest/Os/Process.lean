import E2etest.Async.Actor
import Mathlib.Data.Finset.Basic
import Mathlib.Data.List.Count
import Mathlib.Data.Finset.Filter
import Mathlib.Tactic.Tauto

/-!
# Processes and who holds them

The machine as a process manager sees it: commands are started, a child is killed and waited for,
temporary directories are made. A process is the number of its command among those started; it
runs until it is killed, whether or not anyone holds its handle. Which calls to the system succeed
is open (`succeeds`).

A manager keeps handles in slots, one to an entry (`List (Option Pid)`). `Sound slots` is what every
manager keeps: a handle is of a running process, and no two slots share one. `Held slots` is what it
should keep: every running process is in exactly one slot. The rules say what one change of the
slots does: a new slot (`held_push`) and a kill (`held_take`) keep `Held`, and a process put into a
slot keeps it exactly when the slot was empty (`held_put`).
-/

namespace Os

open Async

/-- `std::net::Ipv4Addr`. -/
abbrev Ipv4Addr := BitVec 32

/-- `std::path::PathBuf`. -/
abbrev Path := List Char

/-- A process: the number of its command. -/
abbrev Pid := Nat

/-- `tempfile::TempDir`: the directory it was created in, and a number of its own. -/
structure TempDir where
  parent : Path
  number : Nat
  deriving DecidableEq, Repr

/-- The machine: the commands started so far, the processes that run, the number of temporary
directories created, the number of calls to the system, which of these succeed, the directory for
temporary files, and whether the manager waits for something that does not happen. -/
structure Machine (C : Type) where
  started : List C := []
  running : Finset Pid := ∅
  tempDirs : Nat := 0
  calls : Nat := 0
  succeeds : Nat → Bool
  tempDir : Path := "/tmp".toList
  stuck : Bool := false

variable {C : Type}

namespace Machine

/-- The next process. -/
def next (w : Machine C) : Pid := w.started.length

/-- The machine after one more call. -/
def called (w : Machine C) : Machine C := { w with calls := w.calls + 1 }

/-- The machine after a successful start of `c`. -/
def spawned (c : C) (w : Machine C) : Machine C :=
  { w with
    started := w.started ++ [c]
    running := insert w.next w.running
    calls := w.calls + 1 }

/-- The machine after a process is killed and waited for. -/
def killed (p : Pid) (w : Machine C) : Machine C := { w with running := w.running.erase p }

/-- The machine after temporary directories are created: `n` of them by now. -/
def withTempDirs (n : Nat) (w : Machine C) : Machine C := { w with tempDirs := n }

/-- The next `n` calls succeed. -/
def Succeeds (w : Machine C) (n : Nat) : Prop := ∀ k < n, w.succeeds (w.calls + k) = true

instance (w : Machine C) (n : Nat) : Decidable (w.Succeeds n) :=
  inferInstanceAs (Decidable (∀ k < n, w.succeeds (w.calls + k) = true))

@[simp] theorem called_running (w : Machine C) : w.called.running = w.running := rfl

@[simp] theorem spawned_running (c : C) (w : Machine C) :
    (w.spawned c).running = insert w.next w.running := rfl

@[simp] theorem spawned_next (c : C) (w : Machine C) : (w.spawned c).next = w.next + 1 := by
  simp [next, spawned]

@[simp] theorem withTempDirs_running (n : Nat) (w : Machine C) :
    (w.withTempDirs n).running = w.running := rfl

@[simp] theorem killed_running (p : Pid) (w : Machine C) :
    (w.killed p).running = w.running.erase p := rfl

@[simp] theorem killed_next (p : Pid) (w : Machine C) : (w.killed p).next = w.next := rfl

theorem succeeds_zero (w : Machine C) : w.Succeeds 0 := fun k hk => absurd hk (Nat.not_lt_zero k)

/-- The first call, and then the others. -/
theorem succeeds_succ {w w' : Machine C} {n : Nat} (hs : w'.succeeds = w.succeeds)
    (hc : w'.calls = w.calls + 1) :
    w.Succeeds (n + 1) ↔ w.succeeds w.calls = true ∧ w'.Succeeds n := by
  unfold Succeeds
  rw [hs, hc]
  constructor
  · intro h
    refine ⟨h 0 (Nat.succ_pos n), fun k hk => ?_⟩
    have := h (k + 1) (Nat.succ_lt_succ hk)
    rwa [Nat.add_comm k 1, ← Nat.add_assoc] at this
  · rintro ⟨h₀, h⟩ k hk
    cases k with
    | zero => exact h₀
    | succ k =>
      have := h k (Nat.lt_of_succ_lt_succ hk)
      rwa [Nat.add_comm k 1, ← Nat.add_assoc]

/-- A start that succeeds, and then the other calls. -/
theorem succeeds_spawned {w : Machine C} (h : w.succeeds w.calls = true) (c : C) (n : Nat) :
    w.Succeeds (n + 1) ↔ (w.spawned c).Succeeds n := by
  have hsucc : w.Succeeds (n + 1) ↔ w.succeeds w.calls = true ∧ (w.spawned c).Succeeds n :=
    succeeds_succ rfl rfl
  rw [hsucc, and_iff_right h]

end Machine

/-- A call to the system that the caller expects to succeed. -/
def call : Code (Machine C) Unit := fun w =>
  if w.succeeds w.calls then (some (), w.called) else (none, w.called)

/-- A call to the system that answers yes or no. -/
def ask : Code (Machine C) Bool := fun w => (some (w.succeeds w.calls), w.called)

/-- A loop that ends when `up` holds. Nothing changes while the manager waits. -/
def waitUntil (up : Machine C → Bool) : Code (Machine C) Unit := fun w =>
  if up w then (some (), w) else (none, { w with stuck := true })

/-- `Command::spawn`, with what its caller does to prepare it. -/
def spawn (c : C) : Code (Machine C) Pid := fun w =>
  if w.succeeds w.calls then (some w.next, w.spawned c) else (none, w.called)

/-- `start_kill` and `wait`. -/
def kill (p : Pid) : Code (Machine C) Unit := fun w =>
  if p ∈ w.running then (some (), w.killed p) else (none, w)

/-- `TempDir::new_in`, `tempdir_in`. -/
def newTempDir (parent : Path) : Code (Machine C) TempDir := fun w =>
  (some ⟨parent, w.tempDirs⟩, w.withTempDirs (w.tempDirs + 1))

/-- `tempdir`. -/
def newDefaultTempDir : Code (Machine C) TempDir := fun w => newTempDir w.tempDir w

theorem spawn_some {c : C} {w : Machine C} (h : w.succeeds w.calls = true) :
    spawn c w = (some w.next, w.spawned c) := if_pos h

theorem spawn_none {c : C} {w : Machine C} (h : w.succeeds w.calls = false) :
    spawn c w = (none, w.called) := if_neg (by simp [h])

theorem spawn_eq_some {c : C} {p : Pid} {w w' : Machine C} :
    spawn c w = (some p, w') ↔ w.succeeds w.calls = true ∧ p = w.next ∧ w' = w.spawned c := by
  cases h : w.succeeds w.calls with
  | false => simp [spawn_none h]
  | true => simp [spawn_some h, eq_comm]

theorem kill_eq_some {p : Pid} {w w' : Machine C} (h : kill p w = (some (), w')) :
    w' = w.killed p := by
  unfold kill at h
  split at h
  · exact (Prod.mk.inj h).2.symm
  · cases h

theorem kill_some {p : Pid} {w : Machine C} (h : p ∈ w.running) : kill p w = (some (), w.killed p) :=
  if_pos h

/-- Calls that are all expected to succeed. -/
theorem forM_call {X : Type} (xs : List X) (w : Machine C) : ∃ n,
    (forM xs fun _ => call) w =
      (if w.Succeeds xs.length then some () else none, { w with calls := n }) := by
  induction xs generalizing w with
  | nil => exact ⟨w.calls, by simp [w.succeeds_zero]⟩
  | cons x xs ih =>
    have hsucc : w.Succeeds (xs.length + 1) ↔ w.succeeds w.calls = true ∧
        w.called.Succeeds xs.length := Machine.succeeds_succ rfl rfl
    rw [List.forM_cons, List.length_cons]
    cases hc : w.succeeds w.calls with
    | false =>
      have hcall : call w = (none, w.called) := by simp [call, hc]
      rw [Code.bind_none hcall]
      exact ⟨w.calls + 1, by simp [hsucc, hc, Machine.called]⟩
    | true =>
      obtain ⟨n, hn⟩ := ih w.called
      have hcall : call w = (some (), w.called) := by simp [call, hc]
      have hrest : w.Succeeds (xs.length + 1) ↔ w.called.Succeeds xs.length := by simp [hsucc, hc]
      rw [Code.bind_some hcall, hn]
      simp only [hrest]
      exact ⟨n, rfl⟩

/-- Calls that are all expected to succeed, each followed by a loop. The loops end when all hold. -/
theorem forM_waitUntil {X : Type} (up : X → Machine C → Bool) (hup : ∀ x w, up x w.called = up x w)
    (xs : List X) (w : Machine C) : ∃ n k,
    (forM xs fun x => do
      call
      waitUntil (up x) : Code (Machine C) Unit) w =
        (if w.Succeeds xs.length ∧ ∀ x ∈ xs, up x w = true then some () else none,
          { w with calls := n, stuck := k }) ∧
      (w.Succeeds xs.length → (k = true ↔ w.stuck = true ∨ ∃ x ∈ xs, up x w = false)) := by
  induction xs generalizing w with
  | nil => exact ⟨w.calls, w.stuck, by simp [w.succeeds_zero], by simp⟩
  | cons x xs ih =>
    have hsucc : w.Succeeds (xs.length + 1) ↔ w.succeeds w.calls = true ∧
        w.called.Succeeds xs.length := Machine.succeeds_succ rfl rfl
    rw [List.forM_cons, List.length_cons, bind_assoc]
    cases hc : w.succeeds w.calls with
    | false =>
      have hcall : call w = (none, w.called) := by simp [call, hc]
      rw [Code.bind_none hcall]
      exact ⟨w.calls + 1, w.stuck, by simp [hsucc, hc, Machine.called], by simp [hsucc, hc]⟩
    | true =>
      have hcall : call w = (some (), w.called) := by simp [call, hc]
      have hrest : w.Succeeds (xs.length + 1) ↔ w.called.Succeeds xs.length := by simp [hsucc, hc]
      rw [Code.bind_some hcall]
      cases hx : up x w with
      | false =>
        have hwait : waitUntil (up x) w.called =
            (none, { w.called with stuck := true }) := by simp [waitUntil, hup, hx]
        rw [Code.bind_none hwait]
        exact ⟨w.calls + 1, true, by simp [hx, Machine.called], by simp [hx]⟩
      | true =>
        have hwait : waitUntil (up x) w.called = (some (), w.called) := by
          simp [waitUntil, hup, hx]
        obtain ⟨n, k, hn, hk⟩ := ih w.called
        simp only [hup] at hn hk
        rw [Code.bind_some hwait, hn]
        refine ⟨n, k, ?_, fun hs => ?_⟩
        · simp only [List.forall_mem_cons, hx, true_and, hrest]
          rfl
        · rw [hk (hrest.mp hs)]
          simp [hx, Machine.called]

/-! ## Slots -/

/-- The handles in the slots are of running processes, each in one slot. -/
structure Sound (slots : List (Option Pid)) (w : Machine C) : Prop where
  lt : ∀ p ∈ w.running, p < w.next
  running : ∀ p, some p ∈ slots → p ∈ w.running
  one : ∀ p, slots.count (some p) ≤ 1

/-- Every running process is in exactly one slot. -/
def Held (slots : List (Option Pid)) (w : Machine C) : Prop :=
  ∀ p ∈ w.running, slots.count (some p) = 1

variable {slots : List (Option Pid)} {w : Machine C}

theorem Sound.init (succeeds : Nat → Bool) : Sound [] ({ succeeds } : Machine C) where
  lt p hp := absurd hp (Finset.notMem_empty p)
  running _ hp := absurd hp List.not_mem_nil
  one _ := Nat.zero_le 1

theorem Held.of_idle (h : w.running = ∅) : Held slots w := fun p hp => by simp [h] at hp

/-- A process is held when some slot holds it. -/
theorem Sound.held_iff (h : Sound slots w) : Held slots w ↔ ∀ p ∈ w.running, some p ∈ slots := by
  refine forall₂_congr fun p _ => ?_
  rw [← List.count_pos_iff]
  have := h.one p
  omega

theorem Sound.next_not_mem (h : Sound slots w) : some w.next ∉ slots := fun hmem =>
  Nat.lt_irrefl _ (h.lt _ (h.running _ hmem))

theorem Sound.congr {w' : Machine C} (h : Sound slots w) (hr : w'.running = w.running)
    (hn : w'.next = w.next) : Sound slots w' where
  lt p hp := by
    rw [hr] at hp
    rw [hn]
    exact h.lt p hp
  running p hp := hr ▸ h.running p hp
  one := h.one

theorem held_congr {w' : Machine C} (hr : w'.running = w.running) : Held slots w' ↔ Held slots w := by
  unfold Held
  rw [hr]

/-- The process that starts has the next number. -/
theorem Sound.lt_spawned (h : Sound slots w) (c : C) (p : Pid) (hp : p ∈ (w.spawned c).running) :
    p < (w.spawned c).next := by
  rw [Machine.spawned_next]
  rcases Finset.mem_insert.mp hp with rfl | hp
  · exact Nat.lt_succ_self _
  · exact Nat.lt_succ_of_lt (h.lt p hp)

/-- A process started and put into a new slot. -/
theorem Sound.push (h : Sound slots w) (c : C) :
    Sound (slots ++ [some w.next]) (w.spawned c) where
  lt := h.lt_spawned c
  running p hp := by
    rw [Machine.spawned_running, Finset.mem_insert]
    rcases List.mem_append.mp hp with hp | hp
    · exact Or.inr (h.running p hp)
    · exact Or.inl (Option.some.inj (List.mem_singleton.mp hp))
  one p := by
    rw [List.count_append, List.count_singleton]
    split
    · rename_i he
      obtain rfl := Option.some.inj (eq_of_beq he)
      rw [List.count_eq_zero.mpr h.next_not_mem]
    · exact h.one p

theorem held_push (h : Sound slots w) (c : C) :
    Held (slots ++ [some w.next]) (w.spawned c) ↔ Held slots w := by
  rw [(h.push c).held_iff, h.held_iff]
  simp only [Machine.spawned_running, Finset.forall_mem_insert, List.mem_append,
    List.mem_singleton, or_true, true_and]
  refine forall₂_congr fun p hp => or_iff_left ?_
  rintro he
  exact Nat.lt_irrefl _ (Option.some.inj he ▸ h.lt p hp)

section Slot

variable {i : Nat} {old : Option Pid}

theorem count_put (hi : slots[i]? = some old) (new : Option Pid) (p : Pid) :
    (slots.set i new).count (some p) =
      slots.count (some p) - (if old = some p then 1 else 0) + if new = some p then 1 else 0 := by
  obtain ⟨hlt, rfl⟩ := List.getElem?_eq_some_iff.mp hi
  rw [List.count_set hlt]
  simp only [beq_iff_eq]

/-- A process started and put into a slot. -/
theorem Sound.put (h : Sound slots w) (hi : slots[i]? = some old) (c : C) :
    Sound (slots.set i (some w.next)) (w.spawned c) where
  lt := h.lt_spawned c
  running p hp := by
    rw [Machine.spawned_running, Finset.mem_insert]
    rcases List.mem_or_eq_of_mem_set hp with hp | hp
    · exact Or.inr (h.running p hp)
    · exact Or.inl (Option.some.inj hp)
  one p := by
    rw [count_put hi]
    by_cases hp : w.next = p
    · subst hp
      rw [List.count_eq_zero.mpr h.next_not_mem]
      simp
    · have := h.one p
      simp only [Option.some.injEq, hp, if_false]
      omega

/-- **A process put into a slot** takes the place of the one that was there, which then nobody
holds. -/
theorem held_put (h : Sound slots w) (hi : slots[i]? = some old) (c : C) :
    Held (slots.set i (some w.next)) (w.spawned c) ↔ Held slots w ∧ old = none := by
  have hold : old ∈ slots := List.mem_of_getElem? hi
  have hne : ∀ p ∈ w.running, w.next ≠ p := fun p hp he => Nat.lt_irrefl _ (he ▸ h.lt p hp)
  have hnext : (slots.set i (some w.next)).count (some w.next) = 1 := by
    rw [count_put hi, List.count_eq_zero.mpr h.next_not_mem]
    simp
  simp only [Held, Machine.spawned_running, Finset.forall_mem_insert, hnext, true_and]
  constructor
  · intro hall
    have hnone : old = none := by
      cases old with
      | none => rfl
      | some q =>
        -- the process that was in the slot still runs
        have hq := h.running q hold
        have := hall q hq
        rw [count_put hi] at this
        have hone := h.one q
        simp only [if_true, Option.some.injEq, hne q hq, if_false] at this
        omega
    refine ⟨fun p hp => ?_, hnone⟩
    have := hall p hp
    rw [count_put hi, hnone] at this
    simpa [hne p hp] using this
  · rintro ⟨hall, rfl⟩ p hp
    rw [count_put hi]
    simpa [hne p hp] using hall p hp

/-- The process in a slot is killed. -/
theorem Sound.take {p : Pid} (h : Sound slots w) (hi : slots[i]? = some (some p)) :
    Sound (slots.set i none) (w.killed p) where
  lt q hq := h.lt q (Finset.mem_of_mem_erase hq)
  running q hq := by
    have hmem := (List.mem_or_eq_of_mem_set hq).resolve_right (Option.some_ne_none q)
    refine Finset.mem_erase.mpr ⟨?_, h.running q hmem⟩
    rintro rfl
    have hpos := List.count_pos_iff.mpr hq
    rw [count_put hi] at hpos
    have := h.one q
    simp at hpos
    omega
  one q := by
    rw [count_put hi]
    have := h.one q
    simp only [reduceCtorEq, if_false]
    omega

/-- **A kill keeps `Held`.** -/
theorem held_take {p : Pid} (h : Sound slots w) (hi : slots[i]? = some (some p)) :
    Held (slots.set i none) (w.killed p) ↔ Held slots w := by
  have hcount : ∀ q, q ≠ p → (slots.set i none).count (some q) = slots.count (some q) := by
    intro q hq
    rw [count_put hi]
    simp [Ne.symm hq]
  constructor
  · intro hall q hq
    by_cases he : q = p
    · subst he
      have := List.count_pos_iff.mpr (List.mem_of_getElem? hi)
      have := h.one q
      omega
    · rw [← hcount q he]
      exact hall q (Finset.mem_erase.mpr ⟨he, hq⟩)
  · intro hall q hq
    obtain ⟨he, hq⟩ := Finset.mem_erase.mp hq
    rw [hcount q he]
    exact hall q hq

end Slot

/-! ## Killing all of them -/

/-- `if let Some(mut child) = node.child.take() { .. }`: the child is killed and waited for. -/
def killChild : Option Pid → Code (Machine C) Unit
  | some p => kill p
  | none => pure ()

/-- The children of all entries, one after the other. -/
def killAll : List (Option Pid) → Code (Machine C) Unit
  | [] => pure ()
  | child :: slots => do
    killChild child
    killAll slots

/-- The loop over the entries that kills each child and clears the entry. -/
theorem mapM_killChild {N : Type} (child : N → Option Pid) (clear : N → N) (ns : List N) :
    (ns.mapM fun n => do
      killChild (C := C) (child n)
      return clear n) = (do
        killAll (ns.map child)
        return ns.map clear) := by
  induction ns with
  | nil => rfl
  | cons n ns ih =>
    rw [List.mapM_cons, ih]
    simp [killAll]

/-- The machine after the processes in the slots are killed. -/
def Machine.without (slots : List (Option Pid)) (w : Machine C) : Machine C :=
  { w with running := w.running.filter fun p => some p ∉ slots }

theorem killAll_eq (hr : ∀ p, some p ∈ slots → p ∈ w.running)
    (hone : ∀ p, slots.count (some p) ≤ 1) : killAll slots w = (some (), w.without slots) := by
  induction slots generalizing w with
  | nil => simp [killAll, Machine.without]
  | cons child slots ih =>
    cases child with
    | none =>
      have := ih (fun p hp => hr p (List.mem_cons_of_mem _ hp)) fun p => by simpa using hone p
      simpa [killAll, killChild, Machine.without] using this
    | some q =>
      have hq : some q ∉ slots := by
        have := hone q
        rw [List.count_cons_self] at this
        exact List.count_eq_zero.mp (by omega)
      have hkill : killChild (some q) w = (some (), w.killed q) :=
        kill_some (hr q List.mem_cons_self)
      unfold killAll
      rw [Code.bind_some hkill, ih]
      · simp only [Machine.without, Machine.killed, Prod.mk.injEq, true_and, Machine.mk.injEq,
          and_true]
        ext p
        simp only [Finset.mem_filter, Finset.mem_erase, List.mem_cons, Option.some.injEq, not_or]
        tauto
      · intro p hp
        refine Finset.mem_erase.mpr ⟨?_, hr p (List.mem_cons_of_mem _ hp)⟩
        rintro rfl
        exact hq hp
      · intro p
        exact (List.count_le_count_cons).trans (hone p)

theorem Sound.killAll (h : Sound slots w) : killAll slots w = (some (), w.without slots) :=
  killAll_eq h.running h.one

/-- **What is left after all held processes are killed**: nothing, when all were held. -/
theorem Sound.without_idle (h : Sound slots w) : (w.without slots).running = ∅ ↔ Held slots w := by
  rw [h.held_iff, Machine.without, Finset.filter_eq_empty_iff]
  simp

theorem Sound.without (h : Sound slots w) (n : Nat) :
    Sound (List.replicate n none) (w.without slots) where
  lt p hp := h.lt p (Finset.mem_of_mem_filter p hp)
  running p hp := absurd (List.eq_of_mem_replicate hp) (Option.some_ne_none p)
  one p := by simp [List.count_replicate]

/-! ## Entries -/

section Entries

variable {N X : Type} {child : N → Option Pid} {make : Code (Machine C) N} {n : N} {ns : List N}

/-- Every running process is the child of exactly one entry; a manager that is gone has left no
process running. -/
def Kept (child : N → Option Pid) : Option (List N) → Machine C → Prop
  | some ns, w => Held (ns.map child) w
  | none, w => w.running = ∅

/-- `make` starts one process and returns an entry whose child it is, or panics before that. -/
structure Starts (child : N → Option Pid) (make : Code (Machine C) N) : Prop where
  starts : ∀ w, w.succeeds w.calls = true → ∃ n c dirs,
    make w = (some n, (w.spawned c).withTempDirs dirs) ∧ child n = some w.next
  panics : ∀ w, w.succeeds w.calls = false → ∃ w', make w = (none, w') ∧ w'.running = w.running

/-- The same entries and processes, unless the answer is not read. -/
theorem kept_unchanged {w' : Machine C} {b : Bool} (h : Held (ns.map child) w)
    (hr : w'.running = w.running) :
    Kept child (if b then some ns else none) w' ↔ b = true ∨ w.running = ∅ := by
  cases b with
  | true => exact iff_of_true ((held_congr hr).mpr h) (Or.inl rfl)
  | false =>
    change w'.running = ∅ ↔ _
    simp [hr]

/-- Some processes are killed; if the answer is not read, the others run on. -/
theorem kept_killed {w' : Machine C} {ns' : List N} {b : Bool} {killed : Pid → Prop}
    (h : Held (ns'.map child) w') (hr : ∀ p, p ∈ w'.running ↔ p ∈ w.running ∧ ¬ killed p) :
    Kept child (if b then some ns' else none) w' ↔ b = true ∨ ∀ p ∈ w.running, killed p := by
  cases b with
  | true => exact iff_of_true h (Or.inl rfl)
  | false =>
    change w'.running = ∅ ↔ _
    rw [or_iff_right Bool.false_ne_true, Finset.eq_empty_iff_forall_notMem]
    refine forall_congr' fun p => ?_
    rw [hr, not_and, not_not]

/-- Nothing runs, so the entries have no children. -/
theorem Sound.child_none (h : Sound (ns.map child) w) (hidle : w.running = ∅) (hn : n ∈ ns) :
    child n = none := by
  refine Option.eq_none_iff_forall_ne_some.mpr fun p hp => ?_
  have := h.running p (List.mem_map.mpr ⟨n, hn, hp⟩)
  simp [hidle] at this

/-- A process is started for a new entry. -/
theorem Starts.push (hm : Starts child make) (h : Sound (ns.map child) w)
    (hs : w.succeeds w.calls = true) : ∃ n c dirs,
      make w = (some n, (w.spawned c).withTempDirs dirs) ∧
        Sound ((ns ++ [n]).map child) ((w.spawned c).withTempDirs dirs) ∧
        (Held ((ns ++ [n]).map child) ((w.spawned c).withTempDirs dirs) ↔
          Held (ns.map child) w) := by
  obtain ⟨n, c, dirs, hmake, hchild⟩ := hm.starts w hs
  refine ⟨n, c, dirs, hmake, ?_⟩
  rw [List.map_append, List.map_singleton, hchild]
  exact ⟨(h.push c).congr rfl rfl, held_push h c⟩

/-- A process is started for entry number `i`. -/
theorem Starts.put (hm : Starts child make) (h : Sound (ns.map child) w) {i : Nat}
    (hi : ns[i]? = some n) (hs : w.succeeds w.calls = true) : ∃ n' c dirs,
      make w = (some n', (w.spawned c).withTempDirs dirs) ∧ child n' = some w.next ∧
        Sound ((ns.set i n').map child) ((w.spawned c).withTempDirs dirs) ∧
        (Held ((ns.set i n').map child) ((w.spawned c).withTempDirs dirs) ↔
          Held (ns.map child) w ∧ child n = none) := by
  obtain ⟨n', c, dirs, hmake, hchild⟩ := hm.starts w hs
  have hslot : (ns.map child)[i]? = some (child n) := by rw [List.getElem?_map, hi]; rfl
  refine ⟨n', c, dirs, hmake, hchild, ?_⟩
  rw [List.map_set, hchild]
  exact ⟨(h.put hslot c).congr rfl rfl, held_put h hslot c⟩

/-- The child of entry number `i` is killed, and the entry has none from then on. -/
theorem Sound.clear (h : Sound (ns.map child) w) {i : Nat} (hi : ns[i]? = some n) (n' : N)
    (hn' : child n' = none) : ∃ w', killChild (child n) w = (some (), w') ∧
      Sound ((ns.set i n').map child) w' ∧
      (Held ((ns.set i n').map child) w' ↔ Held (ns.map child) w) ∧
      ∀ p, p ∈ w'.running ↔ p ∈ w.running ∧ child n ≠ some p := by
  have hslot : (ns.map child)[i]? = some (child n) := by rw [List.getElem?_map, hi]; rfl
  rw [List.map_set, hn']
  cases hc : child n with
  | none =>
    have hsame : (ns.map child).set i none = ns.map child := by
      obtain ⟨hlt, he⟩ := List.getElem?_eq_some_iff.mp hslot
      rw [← hc, ← he]
      exact List.set_getElem_self hlt
    rw [hsame]
    exact ⟨w, rfl, h, Iff.rfl, fun p => (and_iff_left nofun).symm⟩
  | some q =>
    rw [hc] at hslot
    refine ⟨w.killed q, kill_some (h.running q (List.mem_of_getElem? hslot)), h.take hslot,
      held_take h hslot, fun p => ?_⟩
    rw [Machine.killed_running, Finset.mem_erase, and_comm]
    refine and_congr_right fun _ => not_congr ?_
    rw [Option.some.injEq, eq_comm]

/-- `for x in xs { nodes.push(make(x)) }`. -/
def pushAll (make : X → Code (Machine C) N) : List X → List N → Code (Machine C) (List N)
  | [], ns => pure ns
  | x :: xs, ns => do
    let n ← make x
    pushAll make xs (ns ++ [n])

variable {make : X → Code (Machine C) N} {xs : List X}

/-- What holds of the entries there are and of those made holds of all. -/
theorem forall_pushAll {P : N → Prop} (hm : ∀ x w n w', make x w = (some n, w') → P n)
    (hP : ∀ n ∈ ns, P n) {ns' : List N} {w' : Machine C}
    (h : pushAll make xs ns w = (some ns', w')) : ∀ n ∈ ns', P n := by
  induction xs generalizing ns w with
  | nil =>
    cases h
    exact hP
  | cons x xs ih =>
    rcases hx : make x w with ⟨_ | n, w₁⟩
    · unfold pushAll at h
      rw [Code.bind_none hx] at h
      cases h
    · unfold pushAll at h
      rw [Code.bind_some hx] at h
      refine ih (fun m hmem => ?_) h
      rcases List.mem_append.mp hmem with hmem | hmem
      · exact hP m hmem
      · rw [List.mem_singleton.mp hmem]
        exact hm x w n w₁ hx

theorem Sound.pushAll (hm : ∀ x ∈ xs, Starts child (make x)) (h : Sound (ns.map child) w)
    {ns' : List N} {w' : Machine C} (hs : Os.pushAll make xs ns w = (some ns', w')) :
    Sound (ns'.map child) w' := by
  induction xs generalizing ns w with
  | nil =>
    cases hs
    exact h
  | cons x xs ih =>
    obtain ⟨hx, hxs⟩ := List.forall_mem_cons.mp hm
    cases hc : w.succeeds w.calls with
    | false =>
      obtain ⟨w₁, hmake, -⟩ := hx.panics w hc
      unfold Os.pushAll at hs
      rw [Code.bind_none hmake] at hs
      cases hs
    | true =>
      obtain ⟨n, c, dirs, hmake, hsound, -⟩ := hx.push h hc
      unfold Os.pushAll at hs
      rw [Code.bind_some hmake] at hs
      exact ih hxs hsound hs

/-- All entries are made when all the calls succeed. -/
theorem pushAll_isSome_iff (hm : ∀ x ∈ xs, Starts child (make x)) :
    (pushAll make xs ns w).1.isSome ↔ w.Succeeds xs.length := by
  induction xs generalizing ns w with
  | nil => exact iff_of_true rfl w.succeeds_zero
  | cons x xs ih =>
    obtain ⟨hx, hxs⟩ := List.forall_mem_cons.mp hm
    unfold pushAll
    rw [List.length_cons]
    cases hc : w.succeeds w.calls with
    | false =>
      obtain ⟨w₁, hmake, -⟩ := hx.panics w hc
      rw [Code.bind_none hmake]
      refine iff_of_false Bool.false_ne_true fun hall => ?_
      have := hall 0 (Nat.succ_pos _)
      rw [Nat.add_zero, hc] at this
      cases this
    | true =>
      obtain ⟨n, c, dirs, hmake, -⟩ := hx.starts w hc
      have hsucc : w.Succeeds (xs.length + 1) ↔ w.succeeds w.calls = true ∧
          ((w.spawned c).withTempDirs dirs).Succeeds xs.length := Machine.succeeds_succ rfl rfl
      rw [Code.bind_some hmake, ih hxs, hsucc, and_iff_right hc]

/-- **Entries pushed** keep `Kept` when all the calls succeed, or nothing runs and the first one
fails. -/
theorem kept_pushAll (hm : ∀ x ∈ xs, Starts child (make x)) (h : Sound (ns.map child) w) :
    Kept child (pushAll make xs ns w).1 (pushAll make xs ns w).2 ↔ Held (ns.map child) w ∧
      (w.Succeeds xs.length ∨ w.running = ∅ ∧ w.succeeds w.calls = false) := by
  induction xs generalizing ns w with
  | nil => exact (and_iff_left (Or.inl w.succeeds_zero)).symm
  | cons x xs ih =>
    obtain ⟨hx, hxs⟩ := List.forall_mem_cons.mp hm
    cases hc : w.succeeds w.calls with
    | false =>
      obtain ⟨w₁, hmake, hr⟩ := hx.panics w hc
      have hfail : ¬ w.Succeeds (xs.length + 1) := fun hall => by
        have := hall 0 (Nat.succ_pos _)
        rw [Nat.add_zero, hc] at this
        cases this
      unfold pushAll
      rw [Code.bind_none hmake, List.length_cons]
      simp only [Kept, hr, hfail, false_or, and_true]
      exact ⟨fun he => ⟨Held.of_idle he, he⟩, fun he => he.2⟩
    | true =>
      obtain ⟨n, c, dirs, hmake, hsound, hheld⟩ := hx.push h hc
      have hsucc : w.Succeeds (xs.length + 1) ↔ w.succeeds w.calls = true ∧
          ((w.spawned c).withTempDirs dirs).Succeeds xs.length := Machine.succeeds_succ rfl rfl
      unfold pushAll
      rw [Code.bind_some hmake, ih hxs hsound, hheld, List.length_cons, hsucc]
      simp [hc]

end Entries

end Os
