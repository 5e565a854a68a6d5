import E2etest.Ownership

/-!
# The fixture manager is a registry

For any callers, in any order: `Logged` is the invariant that ties the calls the manager made to the
maps, and `manager_invariant` is what follows for every point that can be reached. The keys are the
types of the values, no type has two fixtures, the permanent fixtures stay, and the calls of the
manager are the history of a `Registry` whose fixtures are those in the maps.
-/

namespace E2etest

open Async E2etest.Inner

namespace State

/-- Some steps of the callers of the fixture manager, and of tasks. -/
inductive UsesAll (G : FixtureGraph) (s : State) : List Label → State → Prop
  | refl : UsesAll G s [] s
  | tail {t : List Label} {l : Label} {u u' : State} (h : UsesAll G s t u) (hs : u.Uses G l u') :
      UsesAll G s (t ++ [l]) u'

/-- A sweep has the fixture in its hands. -/
def Extracted (s : State) (a : Arc) : Prop := ∃ n pending, s.tasks n = some (.extracted pending a)

/-- The fixture is in the cache, or a sweep has it in its hands. -/
def Present (s : State) (a : Arc) : Prop := s.inner.Cached a ∨ s.Extracted a

/-- The fixture of a type, which may be in the hands of a sweep. -/
def Live (s : State) (f : TypeId) (a : Arc) : Prop :=
  s.inner.find f = some a ∨ s.Extracted a ∧ s.inner.heap[a]? = some f

/-- The calls that were made since the manager was `s₀`. -/
structure Logged (s₀ : Inner) (s : State) : Prop where
  permanent : s.inner.permanent = s₀.permanent
  heap : s₀.heap <+: s.inner.heap
  present : ∀ a : Nat, s.Present a → s₀.heap.length ≤ a ∧ a < s.inner.heap.length
  /-- What is new has been made once. -/
  made : ∀ a : Nat, s.inner.calls.countP (isMade a) =
    if s₀.heap.length ≤ a ∧ a < s.inner.heap.length then 1 else 0
  /-- What is there has not been torn down, nor what was there from the start. -/
  kept : ∀ a : Nat, s.Present a ∨ a < s₀.heap.length ∨ s.inner.heap.length ≤ a →
    s.inner.calls.count (.teardown a) = 0
  /-- What is new and not there any more has been torn down once. -/
  torn : ∀ a : Nat, s₀.heap.length ≤ a → a < s.inner.heap.length → ¬ s.Present a →
    s.inner.calls.count (.teardown a) = 1
  /-- The calls are the history of a registry. -/
  calls : ∃ q, Registry.Run s₀.permanent.lookup s.inner.calls q ∧ ∀ f a, q f = some a ↔ s.Live f a

variable {G : FixtureGraph} {s s' : State} {s₀ : Inner} {l : Label} {n : NodeId}
  {t : Option TaskState} {a b : Arc}

/-! ## The step lemma -/

theorem extracted_iff (ht : s'.tasks = (s.setTask n t).tasks)
    (hs : ∀ pending, s.tasks n ≠ some (.extracted pending a))
    (hn : ∀ pending, t ≠ some (.extracted pending a)) : s'.Extracted a ↔ s.Extracted a := by
  constructor
  · rintro ⟨m, pending, hm⟩
    rw [ht, setTask_tasks] at hm
    split at hm
    · exact absurd hm (hn pending)
    · exact ⟨m, pending, hm⟩
  · rintro ⟨m, pending, hm⟩
    refine ⟨m, pending, ?_⟩
    rw [ht, setTask_ne, hm]
    rintro rfl
    exact hs pending hm

/-- Two sweeps are not inside at the same time. -/
theorem Owned.extracted_unique (h : s.Owned) {m : NodeId} {p q : List TypeId}
    (hn : s.tasks n = some (.extracted p a)) (hm : s.tasks m = some (.extracted q b)) :
    n = m ∧ a = b := by
  have hn' := (h.locked n).mpr (by rw [hn]; rfl)
  have hm' := (h.locked m).mpr (by rw [hm]; rfl)
  obtain rfl := Option.some.inj (hn'.symm.trans hm')
  obtain ⟨-, rfl⟩ : p = q ∧ a = b := by simpa using hn.symm.trans hm
  exact ⟨rfl, rfl⟩

theorem Logged.congr (h : s.Logged s₀) (hperm : s'.inner.permanent = s.inner.permanent)
    (hheap : s'.inner.heap = s.inner.heap) (hcalls : s'.inner.calls = s.inner.calls)
    (hpresent : ∀ a, s'.Present a ↔ s.Present a) (hlive : ∀ f a, s'.Live f a ↔ s.Live f a) :
    s'.Logged s₀ := by
  refine ⟨hperm.trans h.permanent, hheap ▸ h.heap, ?_, ?_, ?_, ?_, ?_⟩
  · simpa only [hpresent, hheap] using h.present
  · simpa only [hcalls, hheap] using h.made
  · simpa only [hpresent, hheap, hcalls] using h.kept
  · simpa only [hpresent, hheap, hcalls] using h.torn
  · simpa only [hcalls, hlive] using h.calls

/-- The maps stay as they are. -/
theorem Logged.same (h : s.Logged s₀) (hperm : s'.inner.permanent = s.inner.permanent)
    (hcache : s'.inner.cache = s.inner.cache) (hheap : s'.inner.heap = s.inner.heap)
    (hcalls : s'.inner.calls = s.inner.calls) (hext : ∀ a, s'.Extracted a ↔ s.Extracted a) :
    s'.Logged s₀ := by
  refine h.congr hperm hheap hcalls (fun a => ?_) fun f a => ?_
  · unfold Present
    rw [hext, Cached, Cached, hcache]
  · unfold Live
    rw [hext, hheap, find, find, hperm, hcache]

/-- A sweep takes a fixture into its hands. -/
theorem Logged.take (h : s.Logged s₀) (hs : s.Owned) {f : TypeId} {pending pending' : List TypeId}
    {foundAny : Bool} (hn : s.tasks n = some (.sweep pending foundAny))
    (hc : s.inner.cache.lookup f = some a)
    (hi : s'.inner = (s.inner.extract f).hold (.task n) a)
    (ht : s'.tasks = (s.setTask n (some (.extracted pending' a))).tasks) : s'.Logged s₀ := by
  have hext : ∀ b, s'.Extracted b ↔ s.Extracted b ∨ b = a := by
    intro b
    by_cases hb : b = a
    · refine iff_of_true ⟨n, pending', ?_⟩ (Or.inr hb)
      rw [ht, setTask_self, hb]
    · rw [or_iff_left hb]
      refine extracted_iff ht (fun q he => ?_) fun q he => ?_
      · cases hn.symm.trans he
      · obtain ⟨-, rfl⟩ : pending' = q ∧ a = b := by simpa using he
        exact hb rfl
  refine h.congr (by rw [hi]; rfl) (by rw [hi]; rfl) (by rw [hi]; rfl) (fun b => ?_) fun g b => ?_
  · unfold Present
    rw [hext, hi, cached_hold, cached_extract hs.ok hc]
    by_cases hb : b = a
    · subst hb
      exact iff_of_true (Or.inr (Or.inr rfl)) (Or.inl ⟨f, hc⟩)
    · simp [hb]
  · have hfind : s'.inner.find g = some b ↔ s.inner.find g = some b ∧ b ≠ a := by
      rw [hi]
      exact find_extract_iff hs.ok hc
    have hheap : s'.inner.heap = s.inner.heap := by
      rw [hi]
      rfl
    unfold Live
    rw [hext, hfind, hheap]
    by_cases hb : b = a
    · subst hb
      have hg : s.inner.find g = some b ↔ s.inner.heap[b]? = some g := by
        refine ⟨hs.ok.type, fun hg => ?_⟩
        have hf := hs.ok.find_of_cache hc
        obtain rfl := Option.some.inj (hg.symm.trans (hs.ok.type hf))
        exact hf
      simp [hg]
    · simp [hb]

/-- A sweep starts the teardown of the fixture in its hands. -/
theorem Logged.unwrap (h : s.Logged s₀) (hs : s.Owned) {pending : List TypeId}
    (hn : s.tasks n = some (.extracted pending a))
    (hi : s'.inner = (s.inner.release (.task n)).log (.teardown a))
    (ht : s'.tasks = (s.setTask n (some (.tearing pending a))).tasks) : s'.Logged s₀ := by
  obtain ⟨-, f, hf, hnone⟩ := hs.extracted n pending a hn
  have hext : ∀ b, s'.Extracted b ↔ s.Extracted b ∧ b ≠ a := by
    intro b
    by_cases hb : b = a
    · subst hb
      refine iff_of_false ?_ fun hb => hb.2 rfl
      rintro ⟨m, q, hm⟩
      rw [ht, setTask_tasks] at hm
      split at hm
      · cases hm
      · rename_i hne
        exact hne (hs.extracted_unique hm hn).1
    · rw [and_iff_left hb]
      refine extracted_iff ht (fun q he => hb ?_) fun q he => ?_
      · exact (hs.extracted_unique he hn).2
      · cases he
  have hcached : ∀ b, s'.inner.Cached b ↔ s.inner.Cached b := fun b => by rw [hi]; rfl
  have hfind : s'.inner.find = s.inner.find := by rw [hi]; rfl
  have hheap : s'.inner.heap = s.inner.heap := by rw [hi]; rfl
  have hcalls : s'.inner.calls = s.inner.calls ++ [.teardown a] := by rw [hi]; rfl
  have hdead : ¬ s.inner.Cached a := fun ha => hs.ok.not_alive hf hnone (hs.ok.alive_of_cached ha)
  have hpresent : ∀ b, s'.Present b ↔ s.Present b ∧ b ≠ a := by
    intro b
    unfold Present
    rw [hext, hcached]
    by_cases hb : b = a
    · subst hb
      exact iff_of_false (fun hb => hb.elim hdead fun hb => hb.2 rfl) fun hb => hb.2 rfl
    · simp [hb]
  have hlt := h.present a (Or.inr ⟨n, pending, hn⟩)
  have hcount : ∀ b : Arc, b ≠ a →
      s'.inner.calls.count (.teardown b) = s.inner.calls.count (.teardown b) := by
    intro b hb
    rw [hcalls, List.count_append, List.count_singleton, if_neg (by simpa using Ne.symm hb),
      Nat.add_zero]
  refine ⟨by rw [hi]; exact h.permanent, hheap ▸ h.heap, fun b hb => ?_, fun b => ?_, fun b hb => ?_,
    fun b h₁ h₂ h₃ => ?_, ?_⟩
  · rw [hheap]
    exact h.present b ((hpresent b).mp hb).1
  · rw [hcalls, hheap, List.countP_append, List.countP_singleton, h.made b]
    rfl
  · have hne : b ≠ a := by
      rintro rfl
      rw [hheap] at hb
      rcases hb with hb | hb
      · exact ((hpresent b).mp hb).2 rfl
      · omega
    rw [hcount b hne]
    rw [hpresent, hheap] at hb
    exact h.kept b (hb.imp_left And.left)
  · by_cases hb : b = a
    · subst hb
      rw [hcalls, List.count_append, h.kept b (Or.inl (Or.inr ⟨n, pending, hn⟩))]
      simp
    · rw [hcount b hb]
      rw [hheap] at h₂
      exact h.torn b h₁ h₂ fun hp => h₃ ((hpresent b).mpr ⟨hp, hb⟩)
  · obtain ⟨q, hrun, hq⟩ := h.calls
    have hqf : q f = some a := (hq f a).mpr (Or.inr ⟨⟨n, pending, hn⟩, hf⟩)
    refine ⟨Function.update q f none, hcalls ▸ hrun.snoc (.teardown hqf), fun g b => ?_⟩
    unfold Live
    rw [hfind, hheap, hext]
    by_cases hg : g = f
    · subst hg
      rw [Function.update_self, hnone]
      refine iff_of_false nofun ?_
      rintro (hb | ⟨⟨⟨m, q', hm⟩, hne⟩, -⟩)
      · cases hb
      · exact hne (hs.extracted_unique hm hn).2
    · rw [Function.update_of_ne hg, hq, Live]
      refine or_congr_right ⟨fun ⟨hb, hgb⟩ => ⟨⟨hb, ?_⟩, hgb⟩, fun hb => ⟨hb.1.1, hb.2⟩⟩
      rintro rfl
      exact hg (Option.some.inj (hgb.symm.trans hf))

/-- A task sets up a fixture. -/
theorem Logged.setup (h : s.Logged s₀) (hs : s.Owned) {f : TypeId} {script : Script} {inner : Inner}
    {r : Except Unit (Option Arc)} (hn : s.tasks n = some (.setupLocked f))
    (hG : script.respects G f = true) (hr : s.inner.setup f (script.run []) = (inner, r))
    (hi : s'.inner = giveOutput inner n r)
    (ht : s'.tasks = (s.setTask n (some (.setupDone r))).tasks) : s'.Logged s₀ := by
  obtain ⟨⟨hok, hext, -⟩, -⟩ := setup_run_spec hG hs.ok hr
  obtain ⟨new, hnew, hexpected, hrun, hmade⟩ := hext.calls
  have hno : ∀ a, ¬ s.Extracted a := by
    rintro a ⟨m, pending, hm⟩
    exact (hs.locked.no_sweep hn m pending a).1 hm
  have hno' : ∀ a, ¬ s'.Extracted a := by
    intro a ha
    refine hno a ((extracted_iff ht (fun q he => ?_) nofun).mp ha)
    cases hn.symm.trans he
  have hsame : s'.inner.permanent = inner.permanent ∧ s'.inner.cache = inner.cache ∧
      s'.inner.heap = inner.heap ∧ s'.inner.calls = inner.calls := by
    rw [hi]
    rcases r with e | _ | b <;> exact ⟨rfl, rfl, rfl, rfl⟩
  obtain ⟨hperm, hcache, hheap, hcalls⟩ := hsame
  have hfind : s'.inner.find = inner.find := by
    funext g
    unfold find
    rw [hperm, hcache]
  have hpresent : ∀ b, s'.Present b ↔ inner.Cached b := fun b => by
    unfold Present
    rw [or_iff_left (hno' b), Cached, Cached, hcache]
  have hpresent₀ : ∀ b, s.Present b ↔ s.inner.Cached b := fun b => or_iff_left (hno b)
  have hle := h.heap.length_le
  have hle' := hext.heap.length_le
  have htear : ∀ b, inner.calls.count (.teardown b) = s.inner.calls.count (.teardown b) := by
    intro b
    have hb : .teardown b ∉ new := fun hb => hexpected _ hb
    rw [hnew, List.count_append, List.count_eq_zero.mpr hb, Nat.add_zero]
  refine ⟨by rw [hperm, hext.permanent, h.permanent], ?_, fun b hb => ?_,
    fun b => ?_, fun b hb => ?_, fun b h₁ h₂ h₃ => ?_, ?_⟩
  · rw [hheap]
    exact h.heap.trans hext.heap
  · rw [hpresent, hext.cached_iff hok] at hb
    rw [hheap]
    rcases hb with hb | hb
    · have := h.present b ((hpresent₀ b).mpr hb)
      omega
    · omega
  · rw [hcalls, hheap, hnew, List.countP_append, h.made b, hmade b]
    split <;> split <;> split <;> omega
  · rw [hcalls, htear]
    refine h.kept b ?_
    rw [hpresent, hext.cached_iff hok, hheap] at hb
    rw [hpresent₀]
    rcases hb with (hb | hb) | hb | hb
    · exact Or.inl hb
    · exact Or.inr (Or.inr hb.1)
    · exact Or.inr (Or.inl hb)
    · exact Or.inr (Or.inr (hle'.trans hb))
  · rw [hpresent, hext.cached_iff hok, not_or] at h₃
    rw [hheap] at h₂
    rw [hcalls, htear]
    refine h.torn b h₁ (by omega) fun hb => h₃.1 ((hpresent₀ b).mp hb)
  · obtain ⟨q, hrun₀, hq⟩ := h.calls
    have hqs : q = s.inner.find := by
      funext g
      refine Option.ext fun b => (hq g b).trans (or_iff_left fun hb => hno b hb.1)
    refine ⟨inner.find, ?_, fun g b => ?_⟩
    · rw [hcalls, hnew]
      exact (hqs ▸ hrun₀).trans hrun
    · unfold Live
      rw [or_iff_left fun hb => hno' b hb.1, hfind]

theorem logged_step (h : s.Uses G l s') (hs : s.Owned) (hl : s.Logged s₀) : s'.Logged s₀ := by
  -- a task goes on, outside of the two steps that have a fixture in their hands
  have hgo : ∀ {n : NodeId} {t : Option TaskState}, s'.inner.permanent = s.inner.permanent →
      s'.inner.cache = s.inner.cache → s'.inner.heap = s.inner.heap →
      s'.inner.calls = s.inner.calls → s'.tasks = (s.setTask n t).tasks →
      (∀ pending a, s.tasks n ≠ some (.extracted pending a)) →
      (∀ pending a, t ≠ some (.extracted pending a)) → s'.Logged s₀ :=
    fun hp hc hh hcalls ht hs hn => hl.same hp hc hh hcalls fun a =>
      extracted_iff ht (fun pending => hs pending a) fun pending => hn pending a
  cases h with
  | call ha h =>
    cases h with
    | enter => exact hl
    | record _ | report | drop => exact hl.same rfl rfl rfl rfl fun _ => Iff.rfl
    | spawnSetup | spawnTeardown =>
      exact hgo rfl rfl rfl rfl rfl (by rw [show s.tasks _ = none from ha]; nofun) nofun
    | spawnTest =>
      exact hgo rfl rfl rfl rfl rfl (by rw [show s.tasks _ = none from ha.1]; nofun) nofun
    | @joinSetup n f r hn =>
      rcases r with e | _ | a <;> exact hgo rfl rfl rfl rfl rfl (by rw [hn]; nofun) nofun
    | joinTest hn | joinTeardown hn => exact hgo rfl rfl rfl rfl rfl (by rw [hn]; nofun) nofun
  | act h =>
    cases h with
    | lockSetup hn _ | lockTeardown hn _ | keep hn _ _ _ | teardownEnd hn | nextPass hn
    | sweepEnd hn =>
      exact hgo rfl rfl rfl rfl rfl (by rw [hn]; nofun) nofun
    | setup hn hG hr => exact hl.setup hs hn hG hr (by simp) (by simp)
    | clone hn _ => exact hl.same rfl rfl rfl rfl fun _ => Iff.rfl
    | cancelSetup hn _ | cancelTeardown hn _ =>
      exact hgo rfl rfl rfl rfl rfl (by rw [hn]; nofun) nofun
    | @testEnd n r hn =>
      rcases r with e | u <;> exact hgo rfl rfl rfl rfl rfl (by rw [hn]; nofun) nofun
    | take hn hc _ _ => exact hl.take hs hn hc rfl rfl
    | unwrap hn _ => exact hl.unwrap hs hn rfl rfl
    | unwrapFails hn h1 => exact absurd (hs.strongCount_extracted hn) h1
    | teardownFails hn => exact hgo rfl rfl rfl rfl rfl (by rw [hn]; nofun) nofun

/-! ## What can be reached -/

section WithPermanent

/-- The manager before anything is set up. -/
structure Bare (s : Inner) : Prop where
  permanent : ∀ f a, s.permanent.lookup f = some a → s.heap[a]? = some f
  cache : s.cache = ∅
  arcs : s.arcs = []
  calls : s.calls = []

theorem bare_withPermanent (types : List TypeId) : Bare (.withPermanent types) := by
  suffices h : ∀ s : Inner, Bare s → Bare (types.foldl (fun s f =>
      { s with permanent := s.permanent.insert f s.heap.length, heap := s.heap ++ [f] }) s) from
    h .new ⟨nofun, rfl, rfl, rfl⟩
  induction types with
  | nil => exact fun s hs => hs
  | cons f types ih =>
    refine fun s hs => ih _ ⟨fun g a hg => ?_, hs.cache, hs.arcs, hs.calls⟩
    change (s.permanent.insert f s.heap.length).lookup g = some a at hg
    by_cases hgf : g = f
    · subst hgf
      rw [AList.lookup_insert] at hg
      obtain rfl := Option.some.inj hg
      exact List.getElem?_concat_length
    · rw [AList.lookup_insert_ne hgf] at hg
      have ha := hs.permanent g a hg
      obtain ⟨hlt, -⟩ := List.getElem?_eq_some_iff.mp ha
      change (s.heap ++ [f])[a]? = some g
      rw [List.getElem?_append_left hlt, ha]

end WithPermanent

theorem owned_init {inner : Inner} (h : Bare inner) (statistics : Statistics) :
    (State.init statistics inner).Owned where
  ok := by
    refine ⟨h.permanent, fun f a hf => ?_, fun f _ hf => ?_, fun b a hba => ?_⟩
    · change inner.cache.lookup f = some a at hf
      rw [h.cache] at hf
      cases hf
    · change f ∈ inner.cache at hf
      rw [h.cache] at hf
      exact AList.notMem_empty f hf
    · change (.inst b, a) ∈ inner.arcs at hba
      rw [h.arcs] at hba
      cases hba
  locked _ := iff_of_false nofun nofun
  target := by simp [init, h.arcs]
  inst := by simp [init, h.arcs]
  task := by simp [init, h.arcs]
  body := by simp [init, h.arcs]
  output _ _ hn := by cases hn
  extracted _ _ _ hn := by cases hn
  tearing _ _ _ hn := by cases hn

theorem logged_init {inner : Inner} (h : Bare inner) (statistics : Statistics) :
    (State.init statistics inner).Logged inner := by
  have hext : ∀ a, ¬ (State.init statistics inner).Extracted a := by
    rintro a ⟨n, pending, hn⟩
    cases hn
  have hpresent : ∀ a, ¬ (State.init statistics inner).Present a := by
    rintro a (⟨f, hf⟩ | ha)
    · change inner.cache.lookup f = some a at hf
      rw [h.cache] at hf
      cases hf
    · exact hext a ha
  have hcalls : (State.init statistics inner).inner.calls = [] := h.calls
  refine ⟨rfl, List.prefix_rfl, fun a ha => absurd ha (hpresent a), fun a => ?_, fun a _ => ?_,
    fun a h₁ h₂ => absurd h₁ (Nat.not_le.mpr h₂), inner.permanent.lookup, ?_, fun f a => ?_⟩
  · have hheap : (State.init statistics inner).inner.heap = inner.heap := rfl
    rw [hcalls, hheap, if_neg (by omega)]
    rfl
  · rw [hcalls]
    rfl
  · rw [hcalls]
    exact .nil
  · unfold Live
    rw [or_iff_left fun ha => hext a ha.1]
    change _ ↔ inner.find f = some a
    unfold find
    rw [h.cache]
    cases hp : inner.permanent.lookup f <;> simp [hp]

variable {u : List Label} {statistics : Statistics} {types : List TypeId}

theorem owned_of_uses (h : UsesAll G s u s') (hs : s.Owned) : s'.Owned := by
  induction h with
  | refl => exact hs
  | tail _ h ih => exact owned_step h ih

theorem logged_of_uses (h : UsesAll G s u s') (hs : s.Owned) (hl : s.Logged s₀) :
    s'.Logged s₀ := by
  induction h with
  | refl => exact hl
  | tail h' h ih => exact logged_step h (owned_of_uses h' hs) ih

/-- What the callers of the manager rely on, when it was `s₀` at first. -/
structure Managed (G : FixtureGraph) (s₀ : Inner) (s : State) : Prop where
  /-- Each key is the type of its value. -/
  permanent_type : ∀ f a, s.inner.permanent.lookup f = some a → s.inner.heap[a]? = some f
  cache_type : ∀ f a, s.inner.cache.lookup f = some a → s.inner.heap[a]? = some f
  /-- The downcasts of `get` do not fail. -/
  get : ∀ f, s.inner.get f = .ok (s.inner.find f)
  disjoint : ∀ f, f ∈ s.inner.permanent → f ∉ s.inner.cache
  permanent : s.inner.permanent = s₀.permanent
  /-- The calls are the history of a registry: a setup is called only if there is no fixture, and
  what is returned is the fixture that is there. -/
  calls : ∃ q, Registry.Run s₀.permanent.lookup s.inner.calls q ∧ ∀ f a, q f = some a ↔ s.Live f a
  one : ∀ f a b, .made f a ∈ s.inner.calls → .made f b ∈ s.inner.calls →
    .teardown a ∉ s.inner.calls → .teardown b ∉ s.inner.calls → a = b
  not_shadowed : ∀ f ∈ s.inner.permanent, ∀ a, .made f a ∉ s.inner.calls
  /-- A setup returns the fixture that is there, and what it returns is there. -/
  setup : ∀ f (script : Script) inner r, script.respects G f = true →
    s.inner.setup f (script.run []) = (inner, r) →
    (∀ a, s.inner.find f = some a → inner = s.inner.log (.returned f (some a)) ∧ r = .ok (some a)) ∧
      ∀ a, r = .ok (some a) → inner.find f = some a

/-- **The fixture manager, for any callers.** -/
theorem managed (h : UsesAll G (.init statistics (.withPermanent types)) u s) :
    Managed G (.withPermanent types) s := by
  have hbare := bare_withPermanent types
  have hs := owned_of_uses h (owned_init hbare statistics)
  have hl := logged_of_uses h (owned_init hbare statistics) (logged_init hbare statistics)
  obtain ⟨q, hrun, hq⟩ := hl.calls
  refine ⟨hs.ok.permanent, hs.ok.cache, hs.ok.get_eq, hs.ok.disjoint, hl.permanent,
    ⟨q, hrun, hq⟩, fun f a b => hrun.unique, fun f hf a => ?_,
    fun f script inner r hG hr => (setup_run_spec hG hs.ok hr).2⟩
  rw [hl.permanent] at hf
  obtain ⟨b, hb⟩ := Option.isSome_iff_exists.mp (AList.lookup_isSome.mpr hf)
  refine hrun.not_made hb fun hdown => ?_
  have hlt : (b : Nat) < (withPermanent types).heap.length :=
    (List.getElem?_eq_some_iff.mp (hbare.permanent f b hb)).1
  exact List.count_eq_zero.mp (hl.kept b (Or.inr (Or.inl hlt))) hdown

/-! ## Chosen steps -/

instance (s : State) (c : OpCall) : Decidable (s.Allows c) :=
  match c with
  | ⟨.spawn n (.test a) _, _⟩ =>
    inferInstanceAs (Decidable (s.tasks n = none ∧ a ∈ s.inner.heldBy (.node n)))
  | ⟨.spawn n (.setup _) _, _⟩ | ⟨.spawn n .teardown _, _⟩ =>
    inferInstanceAs (Decidable (s.tasks n = none))
  | ⟨.enter _, _⟩ | ⟨.record _ _ _, _⟩ | ⟨.join _ _, _⟩ | ⟨.report _, _⟩ | ⟨.drop _ _, _⟩ =>
    inferInstanceAs (Decidable True)

/-- The state after some steps that callers may take. -/
def use (G : FixtureGraph) (s : State) : List Label → Option State
  | [] => some s
  | .call c :: t => if s.Allows c then (s.call c).bind fun s => use G s t else none
  | .act a :: t => (s.act G a).bind fun s => use G s t

theorem UsesAll.cons {s₁ : State} (h : s.Uses G l s₁) (h' : UsesAll G s₁ u s') :
    UsesAll G s (l :: u) s' := by
  induction h' with
  | refl => exact UsesAll.refl.tail h
  | tail _ hs ih => exact ih.tail hs

theorem usesAll_of_use (h : s.use G u = some s') : UsesAll G s u s' := by
  induction u generalizing s with
  | nil =>
    obtain rfl := Option.some.inj h
    exact .refl
  | cons l u ih =>
    cases l with
    | call c =>
      obtain ⟨ha, h⟩ := Option.ite_none_right_eq_some.mp h
      obtain ⟨s₁, hc, h⟩ := Option.bind_eq_some_iff.mp h
      exact .cons (.call ha (call_cases hc)) (ih h)
    | act a =>
      obtain ⟨s₁, ha, h⟩ := Option.bind_eq_some_iff.mp h
      exact .cons (.act (act_cases ha)) (ih h)

theorem exists_usesAll_of_use {P : State → Bool} (h : (s.use G u).any P = true) :
    ∃ s', UsesAll G s u s' ∧ P s' = true := by
  obtain ⟨s', hs, hP⟩ := (Option.any_eq_true P _).mp h
  exact ⟨s', usesAll_of_use hs, hP⟩

/-- A setup that is skipped leaves the fixture behind it has set up, which the next one gets. -/
theorem managed_skipped : ∃ s : State,
    s.inner.calls = [.setup 1, .setup 0, .made 0 0, .returned 0 (some 0), .returned 1 none,
      .returned 0 (some 0)] ∧ Managed .onSmaller (.withPermanent []) s := by
  obtain ⟨s, hs, hP⟩ := exists_usesAll_of_use (G := .onSmaller)
    (s := .init .new (.withPermanent []))
    (u := [.call ⟨.spawn (.group []) (.setup 1) 0, ()⟩, .act (.lockSetup (.group [])),
      .act (.setup (.group []) (.setup 0 (.done []) .skip)),
      .call ⟨.spawn (.group [0]) (.setup 0) 0, ()⟩, .act (.lockSetup (.group [0])),
      .act (.setup (.group [0]) .skip)])
    (P := fun s => decide (s.inner.calls = [.setup 1, .setup 0, .made 0 0, .returned 0 (some 0),
      .returned 1 none, .returned 0 (some 0)])) (by decide +kernel)
  exact ⟨s, of_decide_eq_true hP, managed hs⟩

end State

end E2etest
