import E2etest.Memory
import E2etest.Steps

/-!
# Who holds what

`State.Uses` is a step of any callers of the fixture manager, in any order: a task is spawned under a
name that is free, a test gets an `Arc` that its caller holds, and apart from that operations and
steps of tasks come as they may. The steps of a run are among them.

`Owned` is what holds at every point: the maps are in order, the lock is held by the task that is
inside, and every `Arc` points to a fixture in the maps, or is the one `Arc` to a fixture that a sweep
has taken out of them. `owned_step` is the step lemma, `owned_of_uses` its closure.
-/

namespace E2etest

open Async E2etest.Inner

/-- A task inside the fixture manager. -/
def TaskState.locked : TaskState → Bool
  | .setupLocked _ | .sweep _ _ | .extracted _ _ | .tearing _ _ => true
  | _ => false

/-- The state of the task says nothing about an `Arc`. -/
def TaskState.bare : TaskState → Bool
  | .setupDone (.ok (some _)) | .extracted _ _ | .tearing _ _ => false
  | _ => true

/-- The task is inside the fixture manager. -/
def holdsLock (t : Option TaskState) : Bool := t.any TaskState.locked

/-- The state of the task says nothing about an `Arc`. -/
def isBare (t : Option TaskState) : Bool := t.all TaskState.bare

/-- Who holds the fixture. -/
def Inner.holders (s : Inner) (a : Arc) : List Holder :=
  (s.arcs.filter fun p => p.2 = a).map Prod.fst

namespace State

/-- A name for a new task is free, and an `Arc` that is cloned is held. -/
def Allows (s : State) : OpCall → Prop
  | ⟨.spawn n (.test a) _, _⟩ => s.tasks n = none ∧ a ∈ s.inner.heldBy (.node n)
  | ⟨.spawn n _ _, _⟩ => s.tasks n = none
  | _ => True

/-- A step of the callers of the fixture manager, or of a task. -/
inductive Uses (G : FixtureGraph) (s : State) : Label → State → Prop
  | call {c : OpCall} {s' : State} (ha : s.Allows c) (h : CallStep s c s') : Uses G s (.call c) s'
  | act {a : Act} {s' : State} (h : ActStep G s a s') : Uses G s (.act a) s'

/-- The task inside the fixture manager is the one that holds the lock. -/
def Locked (s : State) : Prop := ∀ n, s.lock = some n ↔ holdsLock (s.tasks n) = true

/-- What the holders of `Arc`s are, and what they hold. -/
structure Owned (s : State) : Prop where
  ok : s.inner.Ok
  locked : s.Locked
  /-- An `Arc` points to a fixture in the maps, or to the one a sweep has taken out. -/
  target : ∀ h a, (h, a) ∈ s.inner.arcs → s.inner.Alive a ∨
    ∃ n pending, h = .task n ∧ s.tasks n = some (.extracted pending a)
  /-- A fixture that holds something is in the cache, or is being torn down. -/
  inst : ∀ b a, (.inst b, a) ∈ s.inner.arcs → s.inner.Cached b ∨
    ∃ n pending, s.tasks n = some (.extracted pending b) ∨ s.tasks n = some (.tearing pending b)
  task : ∀ n a, (.task n, a) ∈ s.inner.arcs →
    s.tasks n = some (.setupDone (.ok (some a))) ∨ ∃ pending, s.tasks n = some (.extracted pending a)
  body : ∀ n a, (.body n, a) ∈ s.inner.arcs → s.tasks n = some .test
  output : ∀ n a, s.tasks n = some (.setupDone (.ok (some a))) → (.task n, a) ∈ s.inner.arcs
  /-- What a sweep has taken out has one `Arc`, and its type has no other fixture. -/
  extracted : ∀ n pending a, s.tasks n = some (.extracted pending a) →
    s.inner.holders a = [.task n] ∧ ∃ f, s.inner.heap[a]? = some f ∧ s.inner.find f = none
  tearing : ∀ n pending a, s.tasks n = some (.tearing pending a) → ¬ s.inner.Alive a

end State

/-! ## The parts of a step -/

namespace Inner

variable {s : Inner} {h : Holder} {a b : Arc} {f g : TypeId} {p : Holder × Arc} {c : FixtureCall}

@[simp] theorem mem_hold : p ∈ (s.hold h a).arcs ↔ p ∈ s.arcs ∨ p = (h, a) := by
  simp [hold]

@[simp] theorem mem_release : p ∈ (s.release h).arcs ↔ p ∈ s.arcs ∧ p.1 ≠ h := by
  simp [release]

theorem mem_heldBy : a ∈ s.heldBy h ↔ (h, a) ∈ s.arcs := by
  simp [heldBy]

theorem mem_holders : h ∈ s.holders a ↔ (h, a) ∈ s.arcs := by
  simp [holders]

@[simp] theorem holders_hold :
    (s.hold h b).holders a = s.holders a ++ if b = a then [h] else [] := by
  by_cases hb : b = a <;> simp [holders, hold, hb]

@[simp] theorem holders_release :
    (s.release h).holders a = (s.holders a).filter fun k => k ≠ h := by
  simp only [holders, release, List.filter_filter, List.filter_map]
  congr 1
  refine List.filter_congr fun p _ => ?_
  rw [Bool.and_comm]
  rfl

@[simp] theorem log_arcs : (s.log c).arcs = s.arcs := rfl

@[simp] theorem extract_arcs : (s.extract f).arcs = s.arcs := rfl

@[simp] theorem alive_hold : (s.hold h a).Alive b ↔ s.Alive b := Iff.rfl

@[simp] theorem alive_release : (s.release h).Alive b ↔ s.Alive b := Iff.rfl

@[simp] theorem alive_log : (s.log c).Alive b ↔ s.Alive b := Iff.rfl

@[simp] theorem cached_hold : (s.hold h a).Cached b ↔ s.Cached b := Iff.rfl

@[simp] theorem cached_release : (s.release h).Cached b ↔ s.Cached b := Iff.rfl

@[simp] theorem cached_log : (s.log c).Cached b ↔ s.Cached b := Iff.rfl

theorem Ok.hold (hs : s.Ok) (hne : ∀ b, h ≠ .inst b) : (s.hold h a).Ok :=
  ⟨hs.permanent, hs.cache, hs.disjoint, fun b c hbc => (mem_hold.mp hbc).elim (hs.inst b c)
    fun he => absurd (Prod.mk.inj he).1.symm (hne b)⟩

theorem Ok.release (hs : s.Ok) : (s.release h).Ok :=
  ⟨hs.permanent, hs.cache, hs.disjoint, fun b c hbc => hs.inst b c (mem_release.mp hbc).1⟩

/-- What has the type of no fixture in the maps is in neither of them. -/
theorem Ok.not_alive (hs : s.Ok) (hf : s.heap[a]? = some f) (hnone : s.find f = none) :
    ¬ s.Alive a := by
  rintro ⟨g, hg⟩
  obtain rfl : f = g := Option.some.inj (hf.symm.trans (hs.type hg))
  rw [hnone] at hg
  cases hg

theorem Ok.not_permanent (hs : s.Ok) (hf : s.cache.lookup f = some a) : f ∉ s.permanent :=
  fun hp => hs.disjoint f hp (AList.lookup_isSome.mp (by rw [hf]; rfl))

theorem find_extract (hf : f ∉ s.permanent) :
    (s.extract f).find = Function.update s.find f none := by
  have hcache : (s.extract f).cache = s.cache.erase f := rfl
  have hperm : (s.extract f).permanent = s.permanent := rfl
  funext g
  unfold find
  rw [hcache, hperm]
  by_cases hg : g = f
  · rw [hg, Function.update_self, AList.lookup_eq_none.mpr hf]
    exact AList.lookup_erase f s.cache
  · rw [Function.update_of_ne hg, AList.lookup_erase_ne hg]

theorem find_extract_iff (hs : s.Ok) (hf : s.cache.lookup f = some a) :
    (s.extract f).find g = some b ↔ s.find g = some b ∧ b ≠ a := by
  rw [find_extract (hs.not_permanent hf)]
  by_cases hg : g = f
  · subst hg
    rw [Function.update_self]
    refine iff_of_false nofun fun ⟨hb, hne⟩ => hne ?_
    exact Option.some.inj (hb.symm.trans (hs.find_of_cache hf))
  · rw [Function.update_of_ne hg]
    refine ⟨fun hb => ⟨hb, fun he => hg ?_⟩, And.left⟩
    exact hs.key_unique (he ▸ hb) (hs.find_of_cache hf)

theorem alive_extract (hs : s.Ok) (hf : s.cache.lookup f = some a) :
    (s.extract f).Alive b ↔ s.Alive b ∧ b ≠ a := by
  simp only [Alive, find_extract_iff hs hf, exists_and_right]

theorem cached_extract (hs : s.Ok) (hf : s.cache.lookup f = some a) :
    (s.extract f).Cached b ↔ s.Cached b ∧ b ≠ a := by
  constructor
  · rintro ⟨g, hg⟩
    have hne : g ≠ f := fun he => by
      rw [he] at hg
      cases (AList.lookup_erase f s.cache).symm.trans hg
    have hg' : s.cache.lookup g = some b := (AList.lookup_erase_ne hne).symm.trans hg
    refine ⟨⟨g, hg'⟩, fun he => hne ?_⟩
    exact hs.key_unique (hs.find_of_cache hg') (he ▸ hs.find_of_cache hf)
  · rintro ⟨⟨g, hg⟩, hne⟩
    refine ⟨g, (AList.lookup_erase_ne fun he => hne ?_).trans hg⟩
    exact Option.some.inj (hg.symm.trans (he ▸ hf))

theorem Ok.extract (hs : s.Ok) (hf : s.cache.lookup f = some a) (hno : ∀ h, (h, a) ∉ s.arcs) :
    (s.extract f).Ok := by
  refine ⟨hs.permanent, fun g b hg => ?_, fun g hp hc => ?_, fun b c hbc => ?_⟩
  · obtain ⟨⟨g', hg'⟩, -⟩ := (cached_extract hs hf).mp ⟨g, hg⟩
    have hne : g ≠ f := fun he => by
      rw [he] at hg
      cases (AList.lookup_erase f s.cache).symm.trans hg
    exact hs.cache g b ((AList.lookup_erase_ne hne).symm.trans hg)
  · exact hs.disjoint g hp (AList.mem_erase.mp hc).2
  · obtain ⟨hlt, halive⟩ := hs.inst b c hbc
    exact ⟨hlt, (alive_extract hs hf).mpr ⟨halive, fun he => hno _ (he ▸ hbc)⟩⟩

theorem strongCount_eq : s.strongCount a = s.cache.entries.countP (fun e => e.2 = a) +
    s.permanent.entries.countP (fun e => e.2 = a) + (s.holders a).length := by
  simp only [strongCount, holders, List.length_map, ← List.countP_eq_length_filter]

theorem countP_entries_eq_zero {l : AList fun _ : TypeId => Arc}
    (h : ∀ f, l.lookup f ≠ some a) : l.entries.countP (fun e => e.2 = a) = 0 := by
  refine List.countP_eq_zero.mpr ?_
  rintro ⟨f, b⟩ hmem he
  obtain rfl : b = a := of_decide_eq_true he
  exact h f (AList.mem_lookup_iff.mpr hmem)

/-- The count of a fixture in the cache: one for the cache, and one for each holder. -/
theorem strongCount_cached (hs : s.Ok) (hf : s.cache.lookup f = some a) :
    s.strongCount a = 1 + (s.holders a).length := by
  have hkey : ∀ g, s.find g = some a → g = f := fun g hg => hs.key_unique hg (hs.find_of_cache hf)
  have hperm : s.permanent.entries.countP (fun e => e.2 = a) = 0 := by
    refine countP_entries_eq_zero fun g hg => ?_
    obtain rfl := hkey g (find_of_permanent hg)
    exact hs.disjoint g (AList.lookup_isSome.mp (by rw [hg]; rfl))
      (AList.lookup_isSome.mp (by rw [hf]; rfl))
  have hcache : s.cache.entries.countP (fun e => e.2 = a) = 1 := by
    have hmem : (⟨f, a⟩ : Sigma fun _ => Arc) ∈ s.cache.entries := AList.mem_lookup_iff.mp hf
    rw [← List.count_eq_one_of_mem s.cache.nodupKeys.nodup hmem, List.count]
    refine List.countP_congr ?_
    rintro ⟨g, b⟩ hgb
    have hg : s.cache.lookup g = some b := AList.mem_lookup_iff.mpr hgb
    constructor
    · intro he
      obtain rfl : b = a := of_decide_eq_true he
      obtain rfl := hkey g (hs.find_of_cache hg)
      simp
    · intro he
      obtain ⟨-, he⟩ := Sigma.mk.inj (beq_iff_eq.mp he)
      exact decide_eq_true (eq_of_heq he)
  rw [strongCount_eq, hcache, hperm]

/-- The cache alone points to a fixture that nobody holds. -/
theorem strongCount_eq_one_iff (hs : s.Ok) (hf : s.cache.lookup f = some a) :
    s.strongCount a = 1 ↔ s.holders a = [] := by
  rw [strongCount_cached hs hf, ← List.length_eq_zero_iff]
  omega

/-- The count of a fixture that is in neither map. -/
theorem strongCount_not_alive (hs : s.Ok) (ha : ¬ s.Alive a) :
    s.strongCount a = (s.holders a).length := by
  have hcache := countP_entries_eq_zero (l := s.cache) (a := a) fun f hf =>
    ha ⟨f, hs.find_of_cache hf⟩
  have hperm := countP_entries_eq_zero (l := s.permanent) (a := a) fun f hf =>
    ha ⟨f, find_of_permanent hf⟩
  rw [strongCount_eq, hcache, hperm, Nat.zero_add]

end Inner

namespace State

variable {G : FixtureGraph} {s s' : State} {l : Label} {n : NodeId} {t : Option TaskState}

/-! ## The lock -/

theorem Locked.congr (h : s.Locked) (ht : s'.tasks = s.tasks) (hl : s'.lock = s.lock) :
    s'.Locked := by
  intro m
  rw [hl, ht]
  exact h m

/-- A task goes on inside, or outside. -/
theorem Locked.keep (h : s.Locked) (ht : s'.tasks = (s.setTask n t).tasks) (hl : s'.lock = s.lock)
    (hn : holdsLock t = holdsLock (s.tasks n)) : s'.Locked := by
  intro m
  rw [hl, ht, setTask_tasks, h m]
  by_cases hm : m = n
  · rw [if_pos hm, hn, hm]
  · rw [if_neg hm]

/-- A task goes inside. -/
theorem Locked.enter (h : s.Locked) (ht : s'.tasks = (s.setTask n t).tasks) (hs : s.lock = none)
    (hl : s'.lock = some n) (hn : holdsLock t = true) : s'.Locked := by
  intro m
  rw [hl, ht, setTask_tasks]
  by_cases hm : m = n
  · rw [if_pos hm, hm]
    exact iff_of_true rfl hn
  · rw [if_neg hm, ← h m, hs]
    exact iff_of_false (fun he => hm (Option.some.inj he).symm) nofun

/-- A task comes out. -/
theorem Locked.leave (h : s.Locked) (ht : s'.tasks = (s.setTask n t).tasks)
    (hs : holdsLock (s.tasks n) = true) (hl : s'.lock = none) (hn : holdsLock t = false) :
    s'.Locked := by
  intro m
  rw [hl, ht, setTask_tasks]
  refine iff_of_false nofun fun hm => ?_
  split at hm
  · rw [hn] at hm
    cases hm
  · rename_i hne
    exact hne (Option.some.inj (((h m).mpr hm).symm.trans ((h n).mpr hs)))

theorem locked_step (h : s.Uses G l s') (hs : s.Locked) : s'.Locked := by
  cases h with
  | call ha h =>
    cases h with
    | enter => exact hs
    | record _ => exact hs.congr rfl rfl
    | spawnSetup => exact hs.keep rfl rfl (by rw [show s.tasks _ = none from ha]; rfl)
    | spawnTest => exact hs.keep rfl rfl (by rw [show s.tasks _ = none from ha.1]; rfl)
    | spawnTeardown => exact hs.keep rfl rfl (by rw [show s.tasks _ = none from ha]; rfl)
    | joinSetup ht | joinTest ht | joinTeardown ht => exact hs.keep rfl rfl (by rw [ht]; rfl)
    | report => exact hs.congr rfl rfl
    | drop => exact hs.congr rfl rfl
  | act h =>
    cases h with
    | lockSetup ht hl => exact hs.enter rfl hl rfl rfl
    | setup ht _ _ => exact hs.leave (by simp; rfl) (by rw [ht]; rfl) (by simp) rfl
    | cancelSetup ht _ => exact hs.keep (by simp; rfl) (by simp) (by rw [ht]; rfl)
    | clone ht _ => exact hs.congr rfl rfl
    | testEnd ht => exact hs.keep (by simp; rfl) (by simp) (by rw [ht]; rfl)
    | lockTeardown ht hl => exact hs.enter rfl hl rfl rfl
    | take ht _ _ _ => exact hs.keep rfl rfl (by rw [ht]; rfl)
    | keep ht _ _ _ => exact hs.keep rfl rfl (by rw [ht]; rfl)
    | unwrap ht _ => exact hs.keep rfl rfl (by rw [ht]; rfl)
    | unwrapFails ht _ => exact hs.leave (by simp; rfl) (by rw [ht]; rfl) (by simp) rfl
    | teardownEnd ht => exact hs.keep rfl rfl (by rw [ht]; rfl)
    | teardownFails ht => exact hs.leave (by simp; rfl) (by rw [ht]; rfl) (by simp) rfl
    | nextPass ht => exact hs.keep rfl rfl (by rw [ht]; rfl)
    | sweepEnd ht => exact hs.leave rfl (by rw [ht]; rfl) rfl rfl
    | cancelTeardown ht _ => exact hs.keep (by simp; rfl) (by simp) (by rw [ht]; rfl)

/-! ## The holders -/

theorem Owned.congr (h : s.Owned) (hi : s'.inner = s.inner) (ht : s'.tasks = s.tasks)
    (hl : s'.Locked) : s'.Owned := by
  refine ⟨?_, hl, ?_, ?_, ?_, ?_, ?_, ?_, ?_⟩ <;> simp only [hi, ht]
  exacts [h.ok, h.target, h.inst, h.task, h.body, h.output, h.extracted, h.tearing]

/-- A task that has no `Arc` goes on with something that needs none. -/
theorem Owned.relabel (h : s.Owned) (hi : s'.inner = s.inner)
    (ht : s'.tasks = (s.setTask n t).tasks) (hl : s'.Locked) (hbare : isBare t = true)
    (htask : ∀ a, (.task n, a) ∉ s.inner.arcs) (hbody : ∀ a, (.body n, a) ∉ s.inner.arcs)
    (hinst : ∀ pending b, s.tasks n = some (.tearing pending b) →
      ∀ a, (.inst b, a) ∉ s.inner.arcs) : s'.Owned := by
  have hself : s'.tasks n = t := by rw [ht, setTask_self]
  have hne : ∀ m, m ≠ n → s'.tasks m = s.tasks m := fun m hm => by rw [ht, setTask_ne _ _ _ _ hm]
  have hout : ∀ a, t ≠ some (.setupDone (.ok (some a))) := fun a he => by
    rw [he] at hbare
    cases hbare
  have hext : ∀ pending a, t ≠ some (.extracted pending a) := fun pending a he => by
    rw [he] at hbare
    cases hbare
  have htear : ∀ pending a, t ≠ some (.tearing pending a) := fun pending a he => by
    rw [he] at hbare
    cases hbare
  have hold : ∀ pending a, s.tasks n ≠ some (.extracted pending a) := fun pending a he =>
    htask a (mem_holders.mp ((h.extracted n pending a he).1 ▸ List.mem_singleton_self _))
  refine ⟨hi ▸ h.ok, hl, ?_, ?_, ?_, ?_, ?_, ?_, ?_⟩
  · rw [hi]
    intro k a hka
    refine (h.target k a hka).imp_right ?_
    rintro ⟨m, pending, rfl, hm⟩
    exact ⟨m, pending, rfl, (hne m fun he => htask a (he ▸ hka)).trans hm⟩
  · rw [hi]
    intro b a hba
    refine (h.inst b a hba).imp_right ?_
    rintro ⟨m, pending, hm⟩
    have hmn : m ≠ n := by
      rintro rfl
      exact hm.elim (hold pending b) fun hm => hinst pending b hm a hba
    exact ⟨m, pending, by rwa [hne m hmn]⟩
  · rw [hi]
    intro m a hma
    rw [hne m fun he => htask a (he ▸ hma)]
    exact h.task m a hma
  · rw [hi]
    intro m a hma
    rw [hne m fun he => hbody a (he ▸ hma)]
    exact h.body m a hma
  · rw [hi]
    intro m a hm
    by_cases hmn : m = n
    · exact absurd (hself.symm.trans (hmn ▸ hm)) (hout a)
    · exact h.output m a ((hne m hmn).symm.trans hm)
  · rw [hi]
    intro m pending a hm
    by_cases hmn : m = n
    · exact absurd (hself.symm.trans (hmn ▸ hm)) (hext pending a)
    · exact h.extracted m pending a ((hne m hmn).symm.trans hm)
  · rw [hi]
    intro m pending a hm
    by_cases hmn : m = n
    · exact absurd (hself.symm.trans (hmn ▸ hm)) (htear pending a)
    · exact h.tearing m pending a ((hne m hmn).symm.trans hm)

/-- A task outside of a test that has no `Arc` goes on. -/
theorem Owned.go (h : s.Owned) (hold : isBare (s.tasks n) = true) (hno : s.tasks n ≠ some .test)
    (hi : s'.inner = s.inner) (ht : s'.tasks = (s.setTask n t).tasks) (hl : s'.Locked)
    (hbare : isBare t = true) : s'.Owned := by
  refine h.relabel hi ht hl hbare (fun a ha => ?_) (fun a ha => hno (h.body n a ha)) ?_
  · rcases h.task n a ha with hn | ⟨pending, hn⟩ <;> rw [hn] at hold <;> cases hold
  · intro pending b hn
    rw [hn] at hold
    cases hold

/-- An `Arc` that is held is cloned. -/
theorem Owned.hold (h : s.Owned) {a : Arc} (ha : s.inner.Alive a)
    (hn : s.tasks n = some .test) : (s.setInner (s.inner.hold (.body n) a)).Owned := by
  refine ⟨h.ok.hold nofun, h.locked, fun k b hkb => ?_, fun b c hbc => ?_, fun m b hmb => ?_,
    fun m b hmb => ?_, fun m b hm => mem_hold.mpr (Or.inl (h.output m b hm)),
    fun m pending b hm => ?_, fun m pending b hm => h.tearing m pending b hm⟩
  · rcases mem_hold.mp hkb with hkb | he
    · exact h.target k b hkb
    · obtain ⟨-, rfl⟩ := Prod.mk.inj he
      exact Or.inl ha
  · exact h.inst b c ((mem_hold.mp hbc).resolve_right nofun)
  · exact h.task m b ((mem_hold.mp hmb).resolve_right nofun)
  · rcases mem_hold.mp hmb with hmb | he
    · exact h.body m b hmb
    · obtain rfl := Holder.body.inj (Prod.mk.inj he).1
      exact hn
  · obtain ⟨hholders, f, hf, hnone⟩ := h.extracted m pending b hm
    have hne : a ≠ b := by
      rintro rfl
      exact h.ok.not_alive hf hnone ha
    refine ⟨?_, f, hf, hnone⟩
    rw [setInner_inner, holders_hold, hholders, if_neg hne, List.append_nil]

/-- Anybody but a task drops what it holds. -/
theorem Owned.release (h : s.Owned) {k : Holder} (hk : ∀ m, .task m ≠ k) :
    (s.setInner (s.inner.release k)).Owned := by
  refine ⟨h.ok.release, h.locked, fun j b hjb => h.target j b (mem_release.mp hjb).1,
    fun b c hbc => h.inst b c (mem_release.mp hbc).1,
    fun m b hmb => h.task m b (mem_release.mp hmb).1,
    fun m b hmb => h.body m b (mem_release.mp hmb).1,
    fun m b hm => mem_release.mpr ⟨h.output m b hm, hk m⟩, fun m pending b hm => ?_,
    fun m pending b hm => h.tearing m pending b hm⟩
  obtain ⟨hholders, hnone⟩ := h.extracted m pending b hm
  refine ⟨?_, hnone⟩
  rw [setInner_inner, holders_release, hholders]
  simp [hk m]

/-- The caller takes the output of its task. -/
theorem Owned.joinSetup (h : s.Owned) {a : Arc}
    (hn : s.tasks n = some (.setupDone (.ok (some a)))) (hl : s'.Locked)
    (hi : s'.inner = (s.inner.release (.task n)).hold (.node n) a)
    (ht : s'.tasks = (s.setTask n none).tasks) : s'.Owned := by
  have hself : s'.tasks n = none := by rw [ht, setTask_self]
  have hne : ∀ m, m ≠ n → s'.tasks m = s.tasks m := fun m hm => by rw [ht, setTask_ne _ _ _ _ hm]
  have harcs : ∀ k b, (k, b) ∈ s'.inner.arcs ↔
      (k, b) ∈ s.inner.arcs ∧ k ≠ .task n ∨ (k, b) = (.node n, a) := by
    intro k b
    rw [hi, mem_hold, mem_release]
  have halive : ∀ b, s'.inner.Alive b ↔ s.inner.Alive b := fun b => by
    rw [hi, alive_hold, alive_release]
  have ha : s.inner.Alive a := by
    refine (h.target _ a (h.output n a hn)).resolve_right ?_
    rintro ⟨m, pending, he, hm⟩
    obtain rfl := Holder.task.inj he
    rw [hn] at hm
    cases hm
  refine ⟨hi ▸ (h.ok.release.hold nofun), hl, fun k b hkb => ?_, fun b c hbc => ?_,
    fun m b hmb => ?_, fun m b hmb => ?_, fun m b hm => ?_, fun m pending b hm => ?_,
    fun m pending b hm => ?_⟩
  · rcases (harcs k b).mp hkb with ⟨hkb, hk⟩ | he
    · refine (h.target k b hkb).imp (halive b).mpr ?_
      rintro ⟨m, pending, rfl, hm⟩
      exact ⟨m, pending, rfl, (hne m fun he => hk (by rw [he])).trans hm⟩
    · obtain ⟨-, rfl⟩ := Prod.mk.inj he
      exact Or.inl ((halive b).mpr ha)
  · obtain ⟨hbc, -⟩ := ((harcs _ c).mp hbc).resolve_right nofun
    refine (h.inst b c hbc).imp (fun hc => by rwa [hi]) ?_
    rintro ⟨m, pending, hm⟩
    have hmn : m ≠ n := by
      rintro rfl
      rw [hn] at hm
      rcases hm with hm | hm <;> cases hm
    exact ⟨m, pending, by rwa [hne m hmn]⟩
  · obtain ⟨hmb, hmn⟩ := ((harcs _ b).mp hmb).resolve_right nofun
    rw [hne m fun he => hmn (by rw [he])]
    exact h.task m b hmb
  · obtain ⟨hmb, -⟩ := ((harcs _ b).mp hmb).resolve_right nofun
    have hm := h.body m b hmb
    rwa [hne m fun he => by rw [he, hn] at hm; cases hm]
  · have hmn : m ≠ n := fun he => by
      rw [he, hself] at hm
      cases hm
    rw [hne m hmn] at hm
    exact (harcs _ b).mpr (Or.inl ⟨h.output m b hm, fun he => hmn (Holder.task.inj he)⟩)
  · have hmn : m ≠ n := fun he => by
      rw [he, hself] at hm
      cases hm
    rw [hne m hmn] at hm
    obtain ⟨hholders, f, hf, hnone⟩ := h.extracted m pending b hm
    have hab : a ≠ b := by
      rintro rfl
      exact h.ok.not_alive hf hnone ha
    refine ⟨?_, f, by rwa [hi], by rwa [hi]⟩
    rw [hi, holders_hold, holders_release, hholders, if_neg hab]
    simp [hmn]
  · have hmn : m ≠ n := fun he => by
      rw [he, hself] at hm
      cases hm
    rw [hne m hmn] at hm
    exact fun hb => h.tearing m pending b hm ((halive b).mp hb)

/-- A sweep takes a fixture out of the cache, to which nothing else points. -/
theorem Owned.take (h : s.Owned) {f : TypeId} {a : Arc} {pending pending' : List TypeId}
    {foundAny : Bool} (hn : s.tasks n = some (.sweep pending foundAny))
    (hc : s.inner.cache.lookup f = some a) (h1 : s.inner.strongCount a = 1) (hl : s'.Locked)
    (hi : s'.inner = (s.inner.extract f).hold (.task n) a)
    (ht : s'.tasks = (s.setTask n (some (.extracted pending' a))).tasks) : s'.Owned := by
  have hself : s'.tasks n = some (.extracted pending' a) := by rw [ht, setTask_self]
  have hne : ∀ m, m ≠ n → s'.tasks m = s.tasks m := fun m hm => by rw [ht, setTask_ne _ _ _ _ hm]
  have hnil := (strongCount_eq_one_iff h.ok hc).mp h1
  have hno : ∀ k, (k, a) ∉ s.inner.arcs := fun k hk => by
    rw [← mem_holders, hnil] at hk
    cases hk
  have hok := h.ok.extract hc hno
  have hfind : (s.inner.extract f).find f = none := by
    refine find_eq_none.mpr ⟨fun hp => h.ok.disjoint f hp ?_, fun hmem => ?_⟩
    · exact AList.lookup_isSome.mp (by rw [hc]; rfl)
    · exact (AList.mem_erase.mp hmem).1 rfl
  have htype : s.inner.heap[a]? = some f := h.ok.cache f a hc
  have harcs : ∀ k b, (k, b) ∈ s'.inner.arcs ↔ (k, b) ∈ s.inner.arcs ∨ (k, b) = (.task n, a) := by
    intro k b
    rw [hi, mem_hold, extract_arcs]
  have halive : ∀ b, s'.inner.Alive b ↔ s.inner.Alive b ∧ b ≠ a := fun b => by
    rw [hi, alive_hold, alive_extract h.ok hc]
  have hquiet : ∀ m b, (.task m, b) ∈ s.inner.arcs → m ≠ n := by
    rintro m b hmb rfl
    rcases h.task m b hmb with hm | ⟨pending, hm⟩ <;> rw [hn] at hm <;> cases hm
  refine ⟨hi ▸ hok.hold nofun, hl, fun k b hkb => ?_, fun b c hbc => ?_,
    fun m b hmb => ?_, fun m b hmb => ?_, fun m b hm => ?_, fun m q b hm => ?_, fun m q b hm => ?_⟩
  · rcases (harcs k b).mp hkb with hkb | he
    · rcases h.target k b hkb with hb | ⟨m, q, rfl, hm⟩
      · exact Or.inl ((halive b).mpr ⟨hb, fun he => hno k (he ▸ hkb)⟩)
      · exact Or.inr ⟨m, q, rfl, (hne m (hquiet m b hkb)).trans hm⟩
    · obtain ⟨rfl, rfl⟩ := Prod.mk.inj he
      exact Or.inr ⟨n, pending', rfl, hself⟩
  · have hbc' := ((harcs _ c).mp hbc).resolve_right nofun
    rcases h.inst b c hbc' with hb | ⟨m, q, hm⟩
    · by_cases hba : b = a
      · exact Or.inr ⟨n, pending', Or.inl (hba ▸ hself)⟩
      · refine Or.inl ?_
        rw [hi, cached_hold, cached_extract h.ok hc]
        exact ⟨hb, hba⟩
    · have hmn : m ≠ n := by
        rintro rfl
        rw [hn] at hm
        rcases hm with hm | hm <;> cases hm
      exact Or.inr ⟨m, q, by rwa [hne m hmn]⟩
  · rcases (harcs _ b).mp hmb with hmb | he
    · rw [hne m (hquiet m b hmb)]
      exact h.task m b hmb
    · obtain ⟨hm, rfl⟩ := Prod.mk.inj he
      obtain rfl := Holder.task.inj hm
      exact Or.inr ⟨pending', hself⟩
  · have hm := h.body m b (((harcs _ b).mp hmb).resolve_right nofun)
    rwa [hne m fun he => by rw [he, hn] at hm; cases hm]
  · have hmn : m ≠ n := fun he => by
      rw [he, hself] at hm
      cases hm
    exact (harcs _ b).mpr (Or.inl (h.output m b ((hne m hmn).symm.trans hm)))
  · by_cases hmn : m = n
    · subst hmn
      obtain ⟨rfl, rfl⟩ : pending' = q ∧ a = b := by simpa using hself.symm.trans hm
      refine ⟨?_, f, by rwa [hi], by rwa [hi]⟩
      rw [hi, holders_hold, if_pos rfl]
      exact congrArg (· ++ [Holder.task m]) hnil
    · obtain ⟨hholders, g, hg, hnone⟩ := h.extracted m q b ((hne m hmn).symm.trans hm)
      have hab : a ≠ b := by
        rintro rfl
        rw [hnil] at hholders
        cases hholders
      refine ⟨?_, g, by rwa [hi], ?_⟩
      · rw [hi, holders_hold, if_neg hab, List.append_nil]
        exact hholders
      · have := find_eq_none.mp hnone
        rw [hi]
        exact find_eq_none.mpr ⟨this.1, fun hmem => this.2 (AList.mem_erase.mp hmem).2⟩
  · have hmn : m ≠ n := fun he => by
      rw [he, hself] at hm
      cases hm
    exact fun hb => h.tearing m q b ((hne m hmn).symm.trans hm) ((halive b).mp hb).1

/-- What a sweep has taken out of the cache is taken out of its `Arc`. -/
theorem Owned.unwrap (h : s.Owned) {a : Arc} {pending : List TypeId}
    (hn : s.tasks n = some (.extracted pending a)) (hl : s'.Locked)
    (hi : s'.inner = (s.inner.release (.task n)).log (.teardown a))
    (ht : s'.tasks = (s.setTask n (some (.tearing pending a))).tasks) : s'.Owned := by
  have hself : s'.tasks n = some (.tearing pending a) := by rw [ht, setTask_self]
  have hne : ∀ m, m ≠ n → s'.tasks m = s.tasks m := fun m hm => by rw [ht, setTask_ne _ _ _ _ hm]
  have harcs : ∀ k b, (k, b) ∈ s'.inner.arcs ↔ (k, b) ∈ s.inner.arcs ∧ k ≠ .task n := by
    intro k b
    rw [hi, log_arcs, mem_release]
  have halive : ∀ b, s'.inner.Alive b ↔ s.inner.Alive b := fun b => by
    rw [hi, alive_log, alive_release]
  refine ⟨hi ▸ h.ok.release.log _, hl, fun k b hkb => ?_, fun b c hbc => ?_,
    fun m b hmb => ?_, fun m b hmb => ?_, fun m b hm => ?_, fun m q b hm => ?_, fun m q b hm => ?_⟩
  · obtain ⟨hkb', hk⟩ := (harcs k b).mp hkb
    refine (h.target k b hkb').imp (halive b).mpr ?_
    rintro ⟨m, q, rfl, hm⟩
    exact ⟨m, q, rfl, (hne m fun he => hk (by rw [he])).trans hm⟩
  · refine (h.inst b c ((harcs _ c).mp hbc).1).imp (fun hb => by rwa [hi]) ?_
    rintro ⟨m, q, hm⟩
    by_cases hmn : m = n
    · subst hmn
      obtain ⟨rfl, rfl⟩ : pending = q ∧ a = b := by simpa [hn] using hm
      exact ⟨m, pending, Or.inr hself⟩
    · exact ⟨m, q, by rwa [hne m hmn]⟩
  · obtain ⟨hmb', hm⟩ := (harcs _ b).mp hmb
    rw [hne m fun he => hm (by rw [he])]
    exact h.task m b hmb'
  · have hm := h.body m b ((harcs _ b).mp hmb).1
    rwa [hne m fun he => by rw [he, hn] at hm; cases hm]
  · have hmn : m ≠ n := fun he => by
      rw [he, hself] at hm
      cases hm
    refine (harcs _ b).mpr ⟨h.output m b ((hne m hmn).symm.trans hm), fun he => ?_⟩
    exact hmn (Holder.task.inj he)
  · have hmn : m ≠ n := fun he => by
      rw [he, hself] at hm
      cases hm
    obtain ⟨hholders, f, hf, hnone⟩ := h.extracted m q b ((hne m hmn).symm.trans hm)
    refine ⟨?_, f, by rwa [hi], by rwa [hi]⟩
    rw [hi]
    change ((s.inner.release (.task n)).holders b) = _
    rw [holders_release, hholders]
    simp [hmn]
  · rw [halive]
    by_cases hmn : m = n
    · subst hmn
      obtain ⟨rfl, rfl⟩ : pending = q ∧ a = b := by simpa using hself.symm.trans hm
      obtain ⟨-, f, hf, hnone⟩ := h.extracted m pending a hn
      exact h.ok.not_alive hf hnone
    · exact h.tearing m q b ((hne m hmn).symm.trans hm)

/-- What a sweep has taken out of the cache has one `Arc`. -/
theorem Owned.strongCount_extracted (h : s.Owned) {a : Arc} {pending : List TypeId}
    (hn : s.tasks n = some (.extracted pending a)) : s.inner.strongCount a = 1 := by
  obtain ⟨hholders, f, hf, hnone⟩ := h.extracted n pending a hn
  rw [strongCount_not_alive h.ok (h.ok.not_alive hf hnone), hholders]
  rfl

/-- Inside a setup, no sweep has anything in its hands. -/
theorem Locked.no_sweep (h : s.Locked) {f : TypeId} (hn : s.tasks n = some (.setupLocked f))
    (m : NodeId) (pending : List TypeId) (a : Arc) :
    s.tasks m ≠ some (.extracted pending a) ∧ s.tasks m ≠ some (.tearing pending a) := by
  have hlock : s.lock = some n := (h n).mpr (by rw [hn]; rfl)
  have hm : ∀ t, s.tasks m = some t → t.locked = true → t = .setupLocked f := by
    intro t ht hlocked
    have hm := (h m).mpr (by rw [ht]; exact hlocked)
    obtain rfl := Option.some.inj (hm.symm.trans hlock)
    exact Option.some.inj (ht.symm.trans hn)
  exact ⟨fun he => TaskState.noConfusion (hm _ he rfl), fun he => TaskState.noConfusion (hm _ he rfl)⟩

/-- A task sets up a fixture. -/
theorem Owned.setup (h : s.Owned) {f : TypeId} {script : Script} {inner : Inner}
    {r : Except Unit (Option Arc)} (hn : s.tasks n = some (.setupLocked f))
    (hG : script.respects G f = true) (hr : s.inner.setup f (script.run []) = (inner, r))
    (hl : s'.Locked) (hi : s'.inner = giveOutput inner n r)
    (ht : s'.tasks = (s.setTask n (some (.setupDone r))).tasks) : s'.Owned := by
  have hself : s'.tasks n = some (.setupDone r) := by rw [ht, setTask_self]
  have hne : ∀ m, m ≠ n → s'.tasks m = s.tasks m := fun m hm => by rw [ht, setTask_ne _ _ _ _ hm]
  obtain ⟨hgrows, -, hret⟩ := setup_run_spec hG h.ok hr
  obtain ⟨new, hnew, hinst⟩ := hgrows.ext.arcs
  have hsweep := h.locked.no_sweep hn
  have hsweep' : ∀ m q a, s'.tasks m ≠ some (.extracted q a) ∧ s'.tasks m ≠ some (.tearing q a) := by
    intro m q a
    by_cases hmn : m = n
    · subst hmn
      rw [hself]
      exact ⟨by simp, by simp⟩
    · rw [hne m hmn]
      exact hsweep m q a
  have halive : ∀ a, s'.inner.Alive a ↔ inner.Alive a := fun a => by
    rw [hi]
    rcases r with e | _ | b <;> exact Iff.rfl
  have hcached : ∀ a, s'.inner.Cached a ↔ inner.Cached a := fun a => by
    rw [hi]
    rcases r with e | _ | b <;> exact Iff.rfl
  have harcs : ∀ k b, (k, b) ∈ s'.inner.arcs ↔
      (k, b) ∈ s.inner.arcs ∨ (k, b) ∈ new ∨ k = .task n ∧ r = .ok (some b) := by
    intro k b
    rw [hi]
    rcases r with e | _ | a
    · simp [giveOutput, hnew]
    · simp [giveOutput, hnew]
    · simp only [giveOutput, mem_hold, hnew, List.mem_append, Prod.mk.injEq, Except.ok.injEq,
        Option.some.injEq, or_assoc]
      rw [eq_comm (a := b)]
  have hok : s'.inner.Ok := by
    rw [hi]
    rcases r with e | _ | a
    · exact hgrows.ok
    · exact hgrows.ok
    · exact hgrows.ok.hold fun _ h => Holder.noConfusion h
  have hout : ∀ k b, (k, b) ∈ new → ∃ c : Arc, k = .inst c ∧ inner.Cached c := fun k b hkb => by
    obtain ⟨c, rfl, hc, hc'⟩ := hinst _ hkb
    exact ⟨c, rfl, hgrows.ext.fresh c hc hc'⟩
  refine ⟨hok, hl, fun k b hkb => Or.inl ?_, fun b c hbc => Or.inl ?_, fun m b hmb => ?_,
    fun m b hmb => ?_, fun m b hm => ?_, fun m q b hm => absurd hm (hsweep' m q b).1,
    fun m q b hm => absurd hm (hsweep' m q b).2⟩
  · rw [halive]
    rcases (harcs k b).mp hkb with hkb | hkb | ⟨-, rfl⟩
    · refine hgrows.ext.alive ((h.target k b hkb).resolve_right ?_)
      rintro ⟨m, q, -, hm⟩
      exact (hsweep m q b).1 hm
    · obtain ⟨c, rfl, -⟩ := hout k b hkb
      exact (hgrows.ok.inst c b (hnew ▸ List.mem_append_right _ hkb)).2
    · exact ⟨f, hret b rfl⟩
  · rw [hcached]
    rcases (harcs _ c).mp hbc with hbc | hbc | ⟨he, -⟩
    · obtain ⟨g, hg⟩ := (h.inst b c hbc).resolve_right (by
        rintro ⟨m, q, hm⟩
        exact hm.elim (hsweep m q b).1 (hsweep m q b).2)
      exact ⟨g, hgrows.ext.cache g b hg⟩
    · obtain ⟨d, he, hd⟩ := hout _ c hbc
      obtain rfl := Holder.inst.inj he
      exact hd
    · cases he
  · rcases (harcs _ b).mp hmb with hmb | hmb | ⟨he, rfl⟩
    · have hm := h.task m b hmb
      have hmn : m ≠ n := by
        rintro rfl
        rw [hn] at hm
        rcases hm with hm | ⟨q, hm⟩ <;> cases hm
      rwa [hne m hmn]
    · obtain ⟨c, he, -⟩ := hout _ b hmb
      cases he
    · obtain rfl := Holder.task.inj he
      exact Or.inl hself
  · rcases (harcs _ b).mp hmb with hmb | hmb | ⟨he, -⟩
    · have hm := h.body m b hmb
      rwa [hne m fun he => by rw [he, hn] at hm; cases hm]
    · obtain ⟨c, he, -⟩ := hout _ b hmb
      cases he
    · cases he
  · by_cases hmn : m = n
    · subst hmn
      obtain rfl : r = .ok (some b) := by simpa using hself.symm.trans hm
      exact (harcs _ b).mpr (Or.inr (Or.inr ⟨rfl, rfl⟩))
    · exact (harcs _ b).mpr (Or.inl (h.output m b ((hne m hmn).symm.trans hm)))

/-- **The step lemma.** -/
theorem owned_step (h : s.Uses G l s') (hs : s.Owned) : s'.Owned := by
  have hl := locked_step h hs.locked
  cases h with
  | call ha h =>
    cases h with
    | enter => exact hs
    | record _ => exact hs.congr rfl rfl hl
    | @spawnSetup n f timeout | @spawnTeardown n timeout =>
      have hn : s.tasks n = none := ha
      exact hs.go (by rw [hn]; rfl) (by rw [hn]; nofun) rfl rfl hl rfl
    | @spawnTest n a timeout =>
      have hn : s.tasks n = none := ha.1
      have hown : (s.setTask n (some .test)).Owned :=
        hs.go (by rw [hn]; rfl) (by rw [hn]; nofun) rfl rfl hl rfl
      have halive : s.inner.Alive a := by
        refine (hs.target _ a (mem_heldBy.mp ha.2)).resolve_right ?_
        rintro ⟨m, pending, he, -⟩
        cases he
      exact hown.hold halive (setTask_self _ _ _)
    | @joinSetup n f r hn =>
      rcases r with e | _ | a
      · exact hs.go (by rw [hn]; rfl) (by rw [hn]; nofun) rfl rfl hl rfl
      · exact hs.go (by rw [hn]; rfl) (by rw [hn]; nofun) rfl rfl hl rfl
      · exact hs.joinSetup hn hl rfl rfl
    | joinTest hn | joinTeardown hn =>
      exact hs.go (by rw [hn]; rfl) (by rw [hn]; nofun) rfl rfl hl rfl
    | report => exact hs.congr rfl rfl hl
    | drop => exact hs.release nofun
  | act h =>
    cases h with
    | lockSetup hn _ => exact hs.go (by rw [hn]; rfl) (by rw [hn]; nofun) rfl rfl hl rfl
    | setup hn hG hr => exact hs.setup hn hG hr hl (by simp) (by simp)
    | cancelSetup hn _ =>
      exact hs.go (by rw [hn]; rfl) (by rw [hn]; nofun) (by simp) (by simp; rfl) hl rfl
    | clone hn ha =>
      refine hs.hold ?_ hn
      rcases ha with ha | ⟨b, -, ha⟩
      · refine (hs.target _ _ (mem_heldBy.mp ha)).resolve_right ?_
        rintro ⟨m, pending, he, -⟩
        cases he
      · exact (hs.ok.inst b _ (mem_heldBy.mp ha)).2
    | @testEnd n r hn =>
      have hown := hs.release (k := .body n) nofun
      refine hown.relabel (by simp) (by simp; rfl) hl rfl (fun a ha => ?_) (fun a ha => ?_) ?_
      · rcases hown.task n a ha with hm | ⟨pending, hm⟩ <;> cases hn.symm.trans hm
      · exact (mem_release.mp ha).2 rfl
      · intro pending b hm
        cases hn.symm.trans hm
    | lockTeardown hn _ => exact hs.go (by rw [hn]; rfl) (by rw [hn]; nofun) rfl rfl hl rfl
    | take hn hc _ h1 => exact hs.take hn hc h1 hl rfl rfl
    | keep hn _ _ _ => exact hs.go (by rw [hn]; rfl) (by rw [hn]; nofun) rfl rfl hl rfl
    | unwrap hn _ => exact hs.unwrap hn hl rfl rfl
    | unwrapFails hn h1 => exact absurd (hs.strongCount_extracted hn) h1
    | @teardownEnd n pending a hn | @teardownFails n pending a hn =>
      have hown := hs.release (k := .inst a) nofun
      refine hown.relabel (by simp) (by simp; rfl) hl rfl (fun b hb => ?_) (fun b hb => ?_) ?_
      · rcases hown.task n b hb with hm | ⟨pending, hm⟩ <;> cases hn.symm.trans hm
      · cases hn.symm.trans (hown.body n b hb)
      · intro q b hm c hc
        obtain ⟨rfl, rfl⟩ : pending = q ∧ a = b := by simpa using hn.symm.trans hm
        exact (mem_release.mp hc).2 rfl
    | nextPass hn => exact hs.go (by rw [hn]; rfl) (by rw [hn]; nofun) rfl rfl hl rfl
    | sweepEnd hn => exact hs.go (by rw [hn]; rfl) (by rw [hn]; nofun) rfl rfl hl rfl
    | cancelTeardown hn _ =>
      exact hs.go (by rw [hn]; rfl) (by rw [hn]; nofun) (by simp) (by simp; rfl) hl rfl

end State

end E2etest
