import E2etest.Manager

/-!
# The sweep (`Inner::teardown`)

One task sweeps the cache while no other one takes a step and no teardown fails; the passes meet the
keys in any order (`Sweep`). `Phase` is the invariant: what the sweep has taken so far is what a
collector takes that knows nothing of maps, counts and passes (`Refs.Collect`), started from the
cache the sweep found.

`sweep_exact`: the sweep ends, and whatever the order, it has torn down just what cannot be reached
from outside, holders first, and has left the rest.
-/

namespace E2etest

open E2etest.Inner Refs

/-- The task sweeps, and has not failed. -/
def TaskState.sweeps : TaskState → Bool
  | .teardown | .sweep _ _ | .extracted _ _ | .tearing _ _ | .teardownDone (.ok ()) => true
  | _ => false

/-- A chain of holders ends, since a fixture holds only older ones. -/
theorem Inner.Ok.wellFounded {s : Inner} (h : s.Ok) (hinst : ∀ b a, s.Holds b a → s.Cached b) :
    WellFounded s.Holds := by
  refine Subrelation.wf ?_ (measure fun a : Nat => s.heap.length - a).wf
  intro b a hba
  have hlt := (h.inst b a hba).1
  have hb := h.lt (h.alive_of_cached (hinst b a hba))
  change s.heap.length - b < s.heap.length - a
  omega

namespace State

/-- A cache that can be swept by the task of `n`. -/
structure Sweepable (n : NodeId) (s : State) : Prop where
  /-- The maps are in order, and a fixture holds only older ones. -/
  ok : s.inner.Ok
  inst : ∀ b a, s.inner.Holds b a → s.inner.Cached b
  task : ∀ a, (.task n, a) ∉ s.inner.arcs
  ready : s.tasks n = some .teardown
  lock : s.lock = none

/-- One step of the sweep; no teardown fails. -/
def SweepStep (G : FixtureGraph) (n : NodeId) (s : State) (a : Act) (s' : State) : Prop :=
  ActStep G s a s' ∧ a.node = n ∧ a ≠ .teardownEnd n (.error ())

/-- Some steps of the sweep. -/
inductive Sweep (G : FixtureGraph) (n : NodeId) (s : State) : List Act → State → Prop
  | refl : Sweep G n s [] s
  | tail {t : List Act} {a : Act} {u u' : State} (h : Sweep G n s t u)
      (hs : SweepStep G n u a u') : Sweep G n s (t ++ [a]) u'

/-- What the sweep has done: it has taken `taken` out of the cache and torn down `down`, and what
`gone` held is dropped. `hand` is what it holds itself. -/
structure Core (s₀ s : Inner) (taken down gone : List Arc) (hand : List (Holder × Arc)) :
    Prop where
  ok : s.Ok
  cache : ∀ f a, s.cache.lookup f = some a → s₀.cache.lookup f = some a
  size : s.cache.keys.length ≤ s₀.cache.keys.length
  collect : Collect s₀.Holds s₀.External {a | s₀.Cached a} taken {a | s.Cached a}
  calls : s.calls = s₀.calls ++ down.map .teardown
  arcs : ∀ k b, (k, b) ∈ s.arcs ↔
    ((k, b) ∈ s₀.arcs ∧ ∀ c ∈ gone, k ≠ .inst c) ∨ (k, b) ∈ hand

/-- How far the sweep is. -/
inductive Phase (n : NodeId) (s₀ : Inner) (s : State) : Prop
  | waiting (ht : s.tasks n = some .teardown) (hl : s.lock = none) (hi : s.inner = s₀)
  | sweep {pending : List TypeId} {foundAny : Bool} {ds : List Arc}
      (ht : s.tasks n = some (.sweep pending foundAny)) (h : Core s₀ s.inner ds ds ds [])
      (hnd : pending.Nodup) (hp : ∀ f ∈ pending, f ∈ s.inner.cache)
      (hkept : foundAny = false → ∀ f a, s.inner.cache.lookup f = some a → f ∉ pending →
        s.inner.strongCount a ≠ 1)
  | extracted {pending : List TypeId} {a : Arc} {ds : List Arc}
      (ht : s.tasks n = some (.extracted pending a))
      (h : Core s₀ s.inner (ds ++ [a]) ds ds [(.task n, a)])
      (hnd : pending.Nodup) (hp : ∀ f ∈ pending, f ∈ s.inner.cache)
      (h1 : s.inner.strongCount a = 1)
  | tearing {pending : List TypeId} {a : Arc} {ds : List Arc}
      (ht : s.tasks n = some (.tearing pending a))
      (h : Core s₀ s.inner (ds ++ [a]) (ds ++ [a]) ds [])
      (hnd : pending.Nodup) (hp : ∀ f ∈ pending, f ∈ s.inner.cache)
  | done {ds : List Arc} (ht : s.tasks n = some (.teardownDone (.ok ())))
      (h : Core s₀ s.inner ds ds ds [])
      (hkept : ∀ f a, s.inner.cache.lookup f = some a → s.inner.strongCount a ≠ 1)

/-- What is left to do, at most, for a cache of `k` fixtures at first, of which `c` are left. -/
def remaining (k c : Nat) : Option TaskState → Nat
  | some .teardown => c * (k + 6) + k + 2
  | some (.sweep pending false) => c * (k + 6) + pending.length + 1
  | some (.sweep pending true) => c * (k + 6) + pending.length + k + 3
  | some (.extracted pending _) => c * (k + 6) + pending.length + k + 5
  | some (.tearing pending _) => c * (k + 6) + pending.length + k + 4
  | _ => 0

variable {G : FixtureGraph} {n : NodeId} {s₀ : Inner} {s s' : State} {act : Act}

theorem mem_keys_of_lookup {l : AList fun _ : TypeId => Arc} {f : TypeId} {a : Arc}
    (h : l.lookup f = some a) : f ∈ l.keys :=
  AList.mem_keys.mp (AList.lookup_isSome.mp (by rw [h]; rfl))

/-- A fixture with one `Arc` is one that a collector may take. -/
theorem Core.free_iff {ds : List Arc} {f : TypeId} {a : Arc} (h : Core s₀ s.inner ds ds ds [])
    (hinst : ∀ b a, s₀.Holds b a → s₀.Cached b) (hf : s.inner.cache.lookup f = some a) :
    s.inner.strongCount a = 1 ↔ Free s₀.Holds s₀.External {b | s.inner.Cached b} a := by
  have harcs : ∀ k b, (k, b) ∈ s.inner.arcs ↔ (k, b) ∈ s₀.arcs ∧ ∀ c ∈ ds, k ≠ .inst c := by
    simpa using h.arcs
  rw [strongCount_eq_one_iff h.ok hf, List.eq_nil_iff_forall_not_mem]
  constructor
  · intro hno
    refine ⟨⟨f, hf⟩, ?_, fun b hb hba => hno (.inst b) (mem_holders.mpr ((harcs _ _).mpr ⟨hba, ?_⟩))⟩
    · rintro ⟨k, hk, hne⟩
      exact hno k (mem_holders.mpr ((harcs k a).mpr ⟨hk, fun c _ => hne c⟩))
    · rintro c hc he
      obtain rfl := Holder.inst.inj he
      exact h.collect.disjoint hc hb
  · rintro hfree k hk
    obtain ⟨hk, hne⟩ := (harcs k a).mp (mem_holders.mp hk)
    by_cases he : ∃ b, k = .inst b
    · obtain ⟨b, rfl⟩ := he
      have hb : s₀.Cached b := hinst b a hk
      refine hfree.not_held b ?_ hk
      exact (h.collect.live_iff.mp hb).resolve_left fun hds => hne b hds rfl
    · exact hfree.not_root ⟨k, hk, fun b hb => he ⟨b, hb⟩⟩

theorem Core.ext {t u : Inner} {taken down gone : List Arc} {hand : List (Holder × Arc)}
    (h : Core s₀ t taken down gone hand) (hok : u.Ok) (hcache : u.cache = t.cache)
    {down' gone' : List Arc} {hand' : List (Holder × Arc)}
    (hcalls : u.calls = s₀.calls ++ down'.map .teardown)
    (harcs : ∀ k b, (k, b) ∈ u.arcs ↔
      ((k, b) ∈ s₀.arcs ∧ ∀ c ∈ gone', k ≠ .inst c) ∨ (k, b) ∈ hand') :
    Core s₀ u taken down' gone' hand' := by
  have hcached : {a | u.Cached a} = {a | t.Cached a} := by
    simp only [Cached, hcache]
  exact ⟨hok, hcache ▸ h.cache, hcache ▸ h.size, hcached ▸ h.collect, hcalls, harcs⟩

theorem Core.init (hok : s₀.Ok) : Core s₀ s₀ [] [] [] [] :=
  ⟨hok, fun _ _ h => h, le_rfl, .nil, by simp, by simp⟩

/-! ## The phases -/

section Inversion

variable {pending : List TypeId} {foundAny : Bool} {a : Arc}

theorem Phase.of_waiting (h : Phase n s₀ s) (ht : s.tasks n = some .teardown) :
    s.lock = none ∧ s.inner = s₀ := by
  cases h with
  | waiting _ hl hi => exact ⟨hl, hi⟩
  | sweep h' | extracted h' | tearing h' | done h' => cases ht.symm.trans h'

theorem Phase.of_sweep (h : Phase n s₀ s) (ht : s.tasks n = some (.sweep pending foundAny)) :
    ∃ ds, Core s₀ s.inner ds ds ds [] ∧ pending.Nodup ∧ (∀ f ∈ pending, f ∈ s.inner.cache) ∧
      (foundAny = false → ∀ f a, s.inner.cache.lookup f = some a → f ∉ pending →
        s.inner.strongCount a ≠ 1) := by
  cases h with
  | @sweep pending' foundAny' ds h' h hnd hp hkept =>
    obtain ⟨rfl, rfl⟩ : pending = pending' ∧ foundAny = foundAny' := by simpa using ht.symm.trans h'
    exact ⟨ds, h, hnd, hp, hkept⟩
  | waiting h' | extracted h' | tearing h' | done h' => cases ht.symm.trans h'

theorem Phase.of_extracted (h : Phase n s₀ s) (ht : s.tasks n = some (.extracted pending a)) :
    ∃ ds, Core s₀ s.inner (ds ++ [a]) ds ds [(.task n, a)] ∧ pending.Nodup ∧
      (∀ f ∈ pending, f ∈ s.inner.cache) ∧ s.inner.strongCount a = 1 := by
  cases h with
  | @extracted pending' a' ds h' h hnd hp h1 =>
    obtain ⟨rfl, rfl⟩ : pending = pending' ∧ a = a' := by simpa using ht.symm.trans h'
    exact ⟨ds, h, hnd, hp, h1⟩
  | waiting h' | sweep h' | tearing h' | done h' => cases ht.symm.trans h'

theorem Phase.of_tearing (h : Phase n s₀ s) (ht : s.tasks n = some (.tearing pending a)) :
    ∃ ds, Core s₀ s.inner (ds ++ [a]) (ds ++ [a]) ds [] ∧ pending.Nodup ∧
      ∀ f ∈ pending, f ∈ s.inner.cache := by
  cases h with
  | @tearing pending' a' ds h' h hnd hp =>
    obtain ⟨rfl, rfl⟩ : pending = pending' ∧ a = a' := by simpa using ht.symm.trans h'
    exact ⟨ds, h, hnd, hp⟩
  | waiting h' | sweep h' | extracted h' | done h' => cases ht.symm.trans h'

end Inversion

/-- The sweep is at some work. -/
theorem Phase.sweeps {t : TaskState} (h : Phase n s₀ s) (ht : s.tasks n = some t) :
    t.sweeps = true := by
  cases h with
  | waiting h' | sweep h' | extracted h' | tearing h' | done h' =>
    obtain rfl := Option.some.inj (ht.symm.trans h')
    rfl

/-! ## The steps -/

/-- A pass over the whole cache starts. -/
theorem Phase.pass {ds : List Arc} (hcore : Core s₀ s.inner ds ds ds [])
    (ht : s.tasks n = some (.sweep s.inner.cache.keys false)) : Phase n s₀ s :=
  .sweep ht hcore s.inner.cache.keys_nodup (fun _ hf => AList.mem_keys.mpr hf)
    fun _ _ _ hf hno => absurd (mem_keys_of_lookup hf) hno

/-- The pass takes a fixture. -/
theorem Phase.take {pending : List TypeId} {foundAny : Bool} {f : TypeId} {a : Arc}
    (h : Phase n s₀ s) (hinst : ∀ b a, s₀.Holds b a → s₀.Cached b)
    (ht : s.tasks n = some (.sweep pending foundAny)) (hc : s.inner.cache.lookup f = some a)
    (h1 : s.inner.strongCount a = 1) :
    Phase n s₀ ((s.setTask n (some (.extracted (pending.erase f) a))).setInner
      ((s.inner.extract f).hold (.task n) a)) := by
  obtain ⟨ds, hcore, hnd, hp, -⟩ := h.of_sweep ht
  have hfree := (hcore.free_iff hinst hc).mp h1
  have hnil := (strongCount_eq_one_iff hcore.ok hc).mp h1
  have hok := hcore.ok.extract hc fun k hk => by
    rw [← mem_holders, hnil] at hk
    cases hk
  have hcached : {b | ((s.inner.extract f).hold (.task n) a).Cached b} =
      {b | s.inner.Cached b} \ {a} := by
    ext b
    exact cached_extract hcore.ok hc
  have herase : ∀ g ∈ pending.erase f, g ∈ s.inner.cache.erase f := fun g hg =>
    AList.mem_erase.mpr ⟨(hnd.mem_erase_iff.mp hg).1, hp g (hnd.mem_erase_iff.mp hg).2⟩
  refine .extracted (setTask_self _ _ _) ⟨hok.hold nofun, fun g b hg => ?_, ?_, ?_, hcore.calls, ?_⟩
    (hnd.erase f) herase ?_
  · change (s.inner.cache.erase f).lookup g = some b at hg
    refine hcore.cache g b ((AList.lookup_erase_ne fun he => ?_).symm.trans hg)
    rw [he, AList.lookup_erase] at hg
    cases hg
  · refine le_trans ?_ hcore.size
    change (s.inner.cache.erase f).keys.length ≤ _
    rw [AList.keys_erase]
    exact List.length_erase_le
  · rw [setInner_inner, hcached]
    exact hcore.collect.snoc hfree
  · intro k b
    rw [setInner_inner, mem_hold, extract_arcs, hcore.arcs, List.mem_singleton]
    simp
  · have hdead : ¬ ((s.inner.extract f).hold (.task n) a).Alive a := fun ha =>
      ((alive_extract hcore.ok hc).mp ha).2 rfl
    have hholders : ((s.inner.extract f).hold (.task n) a).holders a = [.task n] := by
      rw [holders_hold, if_pos rfl]
      exact congrArg (· ++ [Holder.task n]) hnil
    rw [setInner_inner, strongCount_not_alive (hok.hold (h := .task n) nofun) hdead, hholders]
    rfl

/-- The pass starts the teardown of what it has taken. -/
theorem Phase.unwrap {pending : List TypeId} {a : Arc} (h : Phase n s₀ s)
    (htask : ∀ a, (.task n, a) ∉ s₀.arcs) (ht : s.tasks n = some (.extracted pending a)) :
    Phase n s₀ ((s.setTask n (some (.tearing pending a))).setInner
      ((s.inner.release (.task n)).log (.teardown a))) := by
  obtain ⟨ds, hcore, hnd, hp, -⟩ := h.of_extracted ht
  refine .tearing (setTask_self _ _ _)
    (hcore.ext (hcore.ok.release.log _) rfl ?_ fun k b => ?_) hnd hp
  · change s.inner.calls ++ [.teardown a] = _
    rw [hcore.calls, List.map_append, List.append_assoc]
    rfl
  · rw [log_arcs, mem_release, hcore.arcs]
    constructor
    · rintro ⟨⟨hk, hgone⟩ | hk, hne⟩
      · exact Or.inl ⟨hk, hgone⟩
      · obtain ⟨rfl, -⟩ := Prod.mk.inj (List.mem_singleton.mp hk)
        exact absurd rfl hne
    · rintro (⟨hk, hgone⟩ | hk)
      · refine ⟨Or.inl ⟨hk, hgone⟩, ?_⟩
        rintro rfl
        exact htask b hk
      · cases hk

/-- The teardown ends, and with it goes what the fixture held. -/
theorem Phase.teardownEnd {pending : List TypeId} {a : Arc} (h : Phase n s₀ s)
    (ht : s.tasks n = some (.tearing pending a)) :
    Phase n s₀ ((s.setTask n (some (.sweep pending true))).setInner
      (s.inner.release (.inst a))) := by
  obtain ⟨ds, hcore, hnd, hp⟩ := h.of_tearing ht
  refine .sweep (setTask_self _ _ _)
    (hcore.ext hcore.ok.release rfl hcore.calls fun k b => ?_) hnd hp nofun
  rw [mem_release, hcore.arcs]
  simp only [List.not_mem_nil, or_false, List.mem_append, List.mem_singleton]
  constructor
  · rintro ⟨⟨hk, hgone⟩, hne⟩
    exact ⟨hk, fun c hc => hc.elim (hgone c) fun he => he ▸ hne⟩
  · rintro ⟨hk, hgone⟩
    exact ⟨⟨hk, fun c hc => hgone c (Or.inl hc)⟩, hgone a (Or.inr rfl)⟩

/-- **One step of the sweep.** -/
theorem Phase.step (h : Phase n s₀ s) (hs₀ : s₀.Ok) (hinst : ∀ b a, s₀.Holds b a → s₀.Cached b)
    (htask : ∀ a, (.task n, a) ∉ s₀.arcs) (hs : SweepStep G n s act s') :
    Phase n s₀ s' := by
  obtain ⟨hact, rfl, hok⟩ := hs
  cases hact with
  | lockSetup ht _ | setup ht _ _ | cancelSetup ht _ | clone ht _ | testEnd ht =>
    exact absurd (h.sweeps ht) Bool.false_ne_true
  | unwrapFails ht h1 =>
    obtain ⟨ds, -, -, -, h1'⟩ := h.of_extracted ht
    exact absurd h1' h1
  | lockTeardown ht _ =>
    obtain ⟨-, hi⟩ := h.of_waiting ht
    have hcore : Core s₀ s.inner [] [] [] [] := by
      rw [hi]
      exact .init hs₀
    exact .pass hcore (setTask_self _ _ _)
  | take ht hc _ h1 => exact h.take hinst ht hc h1
  | @keep n f pending foundAny a ht hc hf h1 =>
    obtain ⟨ds, hcore, hnd, hp, hkept⟩ := h.of_sweep ht
    refine .sweep (setTask_self _ _ _) hcore (hnd.erase f)
      (fun g hg => hp g (List.mem_of_mem_erase hg)) fun hfound g b hg hno => ?_
    by_cases hgf : g = f
    · subst hgf
      obtain rfl := Option.some.inj (hg.symm.trans hc)
      exact h1
    · exact hkept hfound g b hg fun hmem => hno (hnd.mem_erase_iff.mpr ⟨hgf, hmem⟩)
  | unwrap ht _ => exact h.unwrap htask ht
  | teardownEnd ht => exact h.teardownEnd ht
  | teardownFails ht => exact absurd rfl hok
  | nextPass ht =>
    obtain ⟨ds, hcore, -⟩ := h.of_sweep ht
    exact .pass hcore (setTask_self _ _ _)
  | sweepEnd ht =>
    obtain ⟨ds, hcore, -, -, hkept⟩ := h.of_sweep ht
    exact .done (setTask_self _ _ _) hcore fun f a hf => hkept rfl f a hf List.not_mem_nil
  | cancelTeardown ht hl =>
    rw [(h.of_waiting ht).1] at hl
    cases hl

/-- There is less to do after a step. -/
theorem Phase.remaining_lt (h : Phase n s₀ s) (hs : SweepStep G n s act s') :
    remaining s₀.cache.keys.length s'.inner.cache.keys.length (s'.tasks n) <
      remaining s₀.cache.keys.length s.inner.cache.keys.length (s.tasks n) := by
  obtain ⟨hact, rfl, hok⟩ := hs
  cases hact with
  | lockSetup ht _ | setup ht _ _ | cancelSetup ht _ | clone ht _ | testEnd ht =>
    exact absurd (h.sweeps ht) Bool.false_ne_true
  | unwrapFails ht h1 =>
    obtain ⟨ds, -, -, -, h1'⟩ := h.of_extracted ht
    exact absurd h1' h1
  | @lockTeardown n ht _ =>
    obtain ⟨-, hi⟩ := h.of_waiting ht
    simp only [Act.node, setLock_tasks, setTask_self, setLock_inner, setTask_inner, ht, remaining, hi]
    omega
  | @take n f pending foundAny a ht hc hf h1 =>
    have hmem := mem_keys_of_lookup hc
    have hcache : ((s.inner.extract f).hold (.task n) a).cache.keys.length =
        s.inner.cache.keys.length - 1 := by
      change (s.inner.cache.erase f).keys.length = _
      rw [AList.keys_erase, List.length_erase_of_mem hmem]
    have hpending := List.length_erase_of_mem hf
    have hpos := List.length_pos_of_mem hf
    obtain ⟨c, hlen⟩ : ∃ c, s.inner.cache.keys.length = c + 1 :=
      ⟨_, (Nat.succ_pred_eq_of_pos (List.length_pos_of_mem hmem)).symm⟩
    simp only [Act.node, setInner_tasks, setTask_self, setInner_inner, ht, hcache, hlen]
    cases foundAny <;> simp only [remaining, Nat.add_sub_cancel, Nat.succ_mul, hpending] <;> omega
  | @keep n f pending foundAny a ht hc hf h1 =>
    have hpending := List.length_erase_of_mem hf
    have hpos := List.length_pos_of_mem hf
    simp only [Act.node, setTask_self, setTask_inner, ht]
    cases foundAny <;> simp only [remaining, hpending] <;> omega
  | @unwrap n pending a ht _ =>
    simp only [Act.node, setInner_tasks, setTask_self, setInner_inner, ht, remaining]
    change s.inner.cache.keys.length * _ + _ + _ + 4 < _
    omega
  | @teardownEnd n pending a ht =>
    simp only [Act.node, setInner_tasks, setTask_self, setInner_inner, ht, remaining]
    change s.inner.cache.keys.length * _ + _ + _ + 3 < _
    omega
  | teardownFails ht => exact absurd rfl hok
  | @nextPass n ht =>
    obtain ⟨ds, hcore, -⟩ := h.of_sweep ht
    have hsize := hcore.size
    simp only [Act.node, setTask_self, setTask_inner, ht, remaining, List.length_nil]
    omega
  | @sweepEnd n ht =>
    simp only [Act.node, setLock_tasks, setTask_self, ht, remaining]
    omega
  | cancelTeardown ht hl =>
    rw [(h.of_waiting ht).1] at hl
    cases hl

/-- Until it has ended, the sweep can take a step. -/
theorem Phase.progress (G : FixtureGraph) (h : Phase n s₀ s)
    (hno : s.tasks n ≠ some (.teardownDone (.ok ()))) : ∃ act s', SweepStep G n s act s' := by
  cases h with
  | waiting ht hl _ => exact ⟨_, _, .lockTeardown ht hl, rfl, nofun⟩
  | @sweep pending foundAny ds ht h hnd hp hkept =>
    cases pending with
    | nil =>
      cases foundAny with
      | true => exact ⟨_, _, .nextPass ht, rfl, nofun⟩
      | false => exact ⟨_, _, .sweepEnd ht, rfl, nofun⟩
    | cons f pending =>
      have hf : f ∈ f :: pending := List.mem_cons_self
      obtain ⟨a, ha⟩ := Option.isSome_iff_exists.mp (AList.lookup_isSome.mpr (hp f hf))
      by_cases h1 : s.inner.strongCount a = 1
      · exact ⟨_, _, .take ht ha hf h1, rfl, nofun⟩
      · exact ⟨_, _, .keep ht ha hf h1, rfl, nofun⟩
  | extracted ht _ _ _ h1 => exact ⟨_, _, .unwrap ht h1, rfl, nofun⟩
  | tearing ht _ _ _ => exact ⟨_, _, .teardownEnd ht, rfl, nofun⟩
  | done ht _ _ => exact absurd ht hno

/-! ## A whole sweep -/

theorem Sweepable.phase {t : List Act} {s₀ : State} (h : s₀.Sweepable n) (hs : Sweep G n s₀ t s) :
    Phase n s₀.inner s := by
  induction hs with
  | refl => exact .waiting h.ready h.lock rfl
  | tail _ hstep ih => exact ih.step h.ok h.inst h.task hstep

theorem Sweepable.length_le {t : List Act} {s₀ : State} (h : s₀.Sweepable n)
    (hs : Sweep G n s₀ t s) :
    t.length + remaining s₀.inner.cache.keys.length s.inner.cache.keys.length (s.tasks n) ≤
      remaining s₀.inner.cache.keys.length s₀.inner.cache.keys.length (some .teardown) := by
  induction hs with
  | refl => simp [h.ready]
  | tail hs hstep ih =>
    have := (h.phase hs).remaining_lt hstep
    rw [List.length_append, List.length_singleton]
    omega

/-- What the sweep has done when it has ended. -/
theorem Sweepable.ended {t : List Act} {s₀ : State} (h : s₀.Sweepable n) (hs : Sweep G n s₀ t s)
    (ht : s.tasks n = some (.teardownDone (.ok ()))) :
    ∃ ds, Core s₀.inner s.inner ds ds ds [] ∧
      ∀ a, ¬ Free s₀.inner.Holds s₀.inner.External {b | s.inner.Cached b} a := by
  cases h.phase hs with
  | @done ds _ hcore hkept =>
    refine ⟨ds, hcore, fun a hfree => ?_⟩
    obtain ⟨f, hf⟩ := hfree.mem
    exact hkept f a hf ((hcore.free_iff h.inst hf).mpr hfree)
  | waiting h' | sweep h' | extracted h' | tearing h' => cases ht.symm.trans h'

/-- What is left when the sweep has ended. -/
theorem Sweepable.lookup_iff {t : List Act} {s₀ : State} (h : s₀.Sweepable n)
    (hs : Sweep G n s₀ t s) (ht : s.tasks n = some (.teardownDone (.ok ()))) (f : TypeId) (a : Arc) :
    s.inner.cache.lookup f = some a ↔ s₀.inner.cache.lookup f = some a ∧ s₀.inner.Needed a := by
  obtain ⟨ds, hcore, hno⟩ := h.ended hs ht
  have hiff : s.inner.Cached a ↔ s₀.inner.Cached a ∧ s₀.inner.Needed a :=
    hcore.collect.mem_iff h.inst (h.ok.wellFounded h.inst) hno
  constructor
  · exact fun hf => ⟨hcore.cache f a hf, (hiff.mp ⟨f, hf⟩).2⟩
  · rintro ⟨hf, hneeded⟩
    obtain ⟨g, hg⟩ := hiff.mpr ⟨⟨f, hf⟩, hneeded⟩
    have hgf := h.ok.key_unique (h.ok.find_of_cache (hcore.cache g a hg)) (h.ok.find_of_cache hf)
    exact hgf ▸ hg

/-- What a sweep from `s₀` does, whatever the order of the keys. -/
structure Exact (G : FixtureGraph) (n : NodeId) (s₀ : State) : Prop where
  ends : ∃ bound, ∀ t s, Sweep G n s₀ t s → t.length ≤ bound
  goes_on : ∀ t s, Sweep G n s₀ t s → s.tasks n ≠ some (.teardownDone (.ok ())) →
    ∃ act s', SweepStep G n s act s'
  /-- What cannot be reached from outside is torn down once, and nothing else; what holds a fixture
  is torn down before it. -/
  torn : ∀ t s, Sweep G n s₀ t s → s.tasks n = some (.teardownDone (.ok ())) →
    ∃ ds, s.inner.calls = s₀.inner.calls ++ ds.map .teardown ∧ ds.Nodup ∧
      (∀ a, a ∈ ds ↔ s₀.inner.Cached a ∧ ¬ s₀.inner.Needed a) ∧
      ∀ pre a post, ds = pre ++ a :: post →
        ∀ b, s₀.inner.Cached b → s₀.inner.Holds b a → b ∈ pre
  left : ∀ t s, Sweep G n s₀ t s → s.tasks n = some (.teardownDone (.ok ())) →
    ∀ f a, s.inner.cache.lookup f = some a ↔ s₀.inner.cache.lookup f = some a ∧ s₀.inner.Needed a
  same : ∀ t s t' s', Sweep G n s₀ t s → s.tasks n = some (.teardownDone (.ok ())) →
    Sweep G n s₀ t' s' → s'.tasks n = some (.teardownDone (.ok ())) →
    ∀ f, s.inner.cache.lookup f = s'.inner.cache.lookup f

/-- **The sweep is exact, ordered and independent of the order of the keys.** -/
theorem sweep_exact (G : FixtureGraph) {s₀ : State} (h : s₀.Sweepable n) : Exact G n s₀ where
  ends := ⟨_, fun _ _ hs => Nat.le_of_add_right_le (h.length_le hs)⟩
  goes_on _ _ hs := (h.phase hs).progress G
  torn t s hs ht := by
    obtain ⟨ds, hcore, hno⟩ := h.ended hs ht
    exact ⟨ds, hcore.calls, hcore.collect.nodup,
      fun a => hcore.collect.mem_taken_iff h.inst (h.ok.wellFounded h.inst) hno,
      fun pre a post hds b hb => hcore.collect.holder_first hds hb⟩
  left _ _ hs ht := h.lookup_iff hs ht
  same t s t' s' hs ht hs' ht' f :=
    Option.ext fun a => (h.lookup_iff hs ht f a).trans (h.lookup_iff hs' ht' f a).symm

/-- Whenever no task is inside the manager, the cache can be swept. -/
theorem Owned.sweepable (h : s.Owned) (ht : s.tasks n = some .teardown) (hl : s.lock = none) :
    s.Sweepable n := by
  have hout : ∀ m t, s.tasks m = some t → t.locked = false := by
    intro m t hm
    by_contra hlocked
    have := (h.locked m).mpr (by rw [hm]; exact Bool.eq_true_of_not_eq_false hlocked)
    rw [hl] at this
    cases this
  refine ⟨h.ok, fun b a hba => (h.inst b a hba).resolve_right ?_, fun a ha => ?_, ht, hl⟩
  · rintro ⟨m, pending, hm | hm⟩ <;> cases hout m _ hm
  · rcases h.task n a ha with hn | ⟨pending, hn⟩ <;> cases ht.symm.trans hn

/-- A fixture that holds another one, which holds a third, when nobody holds the first any more. -/
theorem sweep_exact_chain : ∃ s₀ : State,
    s₀.inner.arcs = [(.inst 1, 0), (.inst 2, 1)] ∧ s₀.inner.cache.keys = [2, 1, 0] ∧
      Exact .onSmaller (.group [0]) s₀ := by
  obtain ⟨s₀, hs, hP⟩ := exists_usesAll_of_use (G := .onSmaller)
    (s := .init .new (.withPermanent []))
    (u := [.call ⟨.spawn (.group []) (.setup 2) 0, ()⟩, .act (.lockSetup (.group [])),
      .act (.setup (.group []) (.setup 1 (.setup 0 (.done []) (.done [0])) (.done [0]))),
      .call ⟨.join (.group []) (.setup 2), .ok (some 2)⟩, .call ⟨.drop (.group []) 2, ()⟩,
      .call ⟨.spawn (.group [0]) .teardown 0, ()⟩])
    (P := fun s => s.inner.arcs = [(.inst 1, 0), (.inst 2, 1)] ∧ s.inner.cache.keys = [2, 1, 0] ∧
      s.tasks (.group [0]) = some .teardown ∧ s.lock = none) (by decide +kernel)
  obtain ⟨harcs, hkeys, ht, hl⟩ := of_decide_eq_true hP
  have hown := owned_of_uses hs (owned_init (bare_withPermanent []) .new)
  exact ⟨s₀, harcs, hkeys, sweep_exact .onSmaller (hown.sweepable ht hl)⟩

end State

end E2etest
