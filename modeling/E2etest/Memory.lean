import E2etest.Refs.Collect
import E2etest.Registry

/-!
# What a setup leaves behind

`Inner.Ok` is the invariant of the two maps and of the `Arc`s that fixtures hold: each key is the
type of its value, no type has two values, and a fixture holds only older ones that are in the maps.

`Inner.Extends` is all that the setup of a fixture may change: new fixtures are put into the cache
and what was there stays. `setup_spec` is the specification of `Setup::setup`, for any user code
that sets up only what its fixture may depend on: however the setup ends, the maps are extended, and
if it returns an `Arc` then that of the fixture that is in the maps.
-/

namespace E2etest

namespace Inner

/-- The fixture of a type. -/
def find (s : Inner) (f : TypeId) : Option Arc :=
  match s.permanent.lookup f with
  | some a => some a
  | none => s.cache.lookup f

/-- The fixture is in one of the maps. -/
def Alive (s : Inner) (a : Arc) : Prop := ∃ f, s.find f = some a

/-- The fixture is in the cache. -/
def Cached (s : Inner) (a : Arc) : Prop := ∃ f, s.cache.lookup f = some a

/-- A fixture holds another one. -/
def Holds (s : Inner) (b a : Arc) : Prop := (.inst b, a) ∈ s.arcs

/-- A fixture holds another one, directly or not. -/
def Reaches (s : Inner) : Arc → Arc → Prop := Relation.ReflTransGen s.Holds

/-- Something other than a fixture holds the fixture. -/
def External (s : Inner) (a : Arc) : Prop := ∃ h, (h, a) ∈ s.arcs ∧ ∀ b, h ≠ .inst b

/-- Something other than a fixture holds the fixture, directly or not. -/
def Needed (s : Inner) : Arc → Prop := Refs.Reached s.Holds s.External

/-- The invariant of the maps. -/
structure Ok (s : Inner) : Prop where
  permanent : ∀ f a, s.permanent.lookup f = some a → s.heap[a]? = some f
  cache : ∀ f a, s.cache.lookup f = some a → s.heap[a]? = some f
  disjoint : ∀ f, f ∈ s.permanent → f ∉ s.cache
  /-- A fixture holds only older ones that are in the maps. -/
  inst : ∀ b a : Nat, (.inst b, a) ∈ s.arcs → a < b ∧ s.Alive a

variable {s s' s'' : Inner} {f g : TypeId} {a b : Nat}

theorem find_of_permanent (h : s.permanent.lookup f = some a) : s.find f = some a := by
  unfold find
  rw [h]

theorem find_eq_none : s.find f = none ↔ f ∉ s.permanent ∧ f ∉ s.cache := by
  unfold find
  rw [← AList.lookup_eq_none, ← AList.lookup_eq_none]
  cases s.permanent.lookup f <;> simp

namespace Ok

theorem find_of_cache (h : s.Ok) (hc : s.cache.lookup f = some a) : s.find f = some a := by
  have hp : s.permanent.lookup f = none := by
    refine AList.lookup_eq_none.mpr fun hp => h.disjoint f hp ?_
    exact AList.lookup_isSome.mp (by rw [hc]; rfl)
  unfold find
  rw [hp, hc]

theorem find_iff (h : s.Ok) :
    s.find f = some a ↔ s.permanent.lookup f = some a ∨ s.cache.lookup f = some a := by
  constructor
  · intro hf
    unfold find at hf
    split at hf
    · rename_i b hb
      exact Or.inl (hb.trans hf)
    · exact Or.inr hf
  · exact fun hf => hf.elim find_of_permanent h.find_of_cache

/-- Each key is the type of the value. -/
theorem type (h : s.Ok) (hf : s.find f = some a) : s.heap[a]? = some f :=
  (h.find_iff.mp hf).elim (h.permanent f a) (h.cache f a)

theorem lt (h : s.Ok) (ha : s.Alive a) : a < s.heap.length := by
  obtain ⟨f, hf⟩ := ha
  exact (List.getElem?_eq_some_iff.mp (h.type hf)).1

theorem alive_of_cached (h : s.Ok) (ha : s.Cached a) : s.Alive a := by
  obtain ⟨f, hf⟩ := ha
  exact ⟨f, h.find_of_cache hf⟩

/-- A fixture has one key. -/
theorem key_unique (h : s.Ok) (hf : s.find f = some a) (hg : s.find g = some a) : f = g :=
  Option.some.inj ((h.type hf).symm.trans (h.type hg))

/-- **The downcasts of `get` do not fail.** -/
theorem get_eq (h : s.Ok) (f : TypeId) : s.get f = .ok (s.find f) := by
  unfold get find
  cases hp : s.permanent.lookup f with
  | some a => simp only [downcast, if_pos (h.permanent f a hp)]
  | none =>
    cases hc : s.cache.lookup f with
    | some a => simp only [downcast, if_pos (h.cache f a hc)]
    | none => rfl

end Ok

/-- The `made` of one allocation. -/
def isMade (a : Nat) : FixtureCall → Bool
  | .made _ b => decide ((b : Nat) = a)
  | _ => false

/-- The call is what is expected when it starts from `s`. -/
def Expected (s : Inner) : FixtureCall → Prop
  | .setup f => s.find f = none
  | .made f a => s.find f = none ∧ s.heap.length ≤ (a : Nat)
  | .returned f r => ∀ a, s.find f = some a → r = some a
  | .teardown _ => False

/-- All that a setup may change. -/
structure Extends (s s' : Inner) : Prop where
  permanent : s'.permanent = s.permanent
  cache : ∀ f a, s.cache.lookup f = some a → s'.cache.lookup f = some a
  heap : s.heap <+: s'.heap
  /-- What is new is in the cache. -/
  fresh : ∀ a : Nat, s.heap.length ≤ a → a < s'.heap.length → s'.Cached a
  arcs : ∃ new, s'.arcs = s.arcs ++ new ∧
    ∀ p ∈ new, ∃ b : Nat, p.1 = .inst b ∧ s.heap.length ≤ b ∧ b < s'.heap.length
  /-- The calls are those of a registry. -/
  calls : ∃ new, s'.calls = s.calls ++ new ∧ (∀ c ∈ new, s.Expected c) ∧
    Registry.Run s.find new s'.find ∧
    ∀ a : Nat, new.countP (isMade a) =
      if s.heap.length ≤ a ∧ a < s'.heap.length then 1 else 0

namespace Extends

theorem refl (s : Inner) : Extends s s where
  permanent := rfl
  cache _ _ h := h
  heap := List.prefix_rfl
  fresh a h h' := by omega
  arcs := ⟨[], by simp, by simp⟩
  calls := ⟨[], by simp, by simp, .nil, fun a => by
    rw [if_neg (by omega)]
    rfl⟩

theorem find (h : Extends s s') (hf : s.find f = some a) : s'.find f = some a := by
  unfold Inner.find at hf ⊢
  rw [h.permanent]
  split
  · rename_i b hb
    rwa [hb] at hf
  · rename_i hb
    rw [hb] at hf
    exact h.cache f a hf

theorem find_none (h : Extends s s') (hf : s'.find f = none) : s.find f = none := by
  cases hs : s.find f with
  | none => rfl
  | some a => rw [h.find hs] at hf; cases hf

theorem alive (h : Extends s s') (ha : s.Alive a) : s'.Alive a :=
  ha.imp fun _ hf => h.find hf

theorem expected (h : Extends s s') {c : FixtureCall} (hc : s'.Expected c) : s.Expected c := by
  cases c with
  | setup f => exact h.find_none hc
  | made f a => exact ⟨h.find_none hc.1, h.heap.length_le.trans hc.2⟩
  | returned f r => exact fun a ha => hc a (h.find ha)
  | teardown a => exact hc

theorem trans (h : Extends s s') (h' : Extends s' s'') : Extends s s'' := by
  have hle := h.heap.length_le
  have hle' := h'.heap.length_le
  refine ⟨h'.permanent.trans h.permanent, fun f a hf => h'.cache f a (h.cache f a hf),
    h.heap.trans h'.heap, fun a ha ha' => ?_, ?_, ?_⟩
  · by_cases hlt : a < s'.heap.length
    · exact (h.fresh a ha hlt).imp fun f hf => h'.cache f a hf
    · exact h'.fresh a (by omega) ha'
  · obtain ⟨new, hnew, harcs⟩ := h.arcs
    obtain ⟨new', hnew', harcs'⟩ := h'.arcs
    refine ⟨new ++ new', by rw [hnew', hnew, List.append_assoc], fun p hp => ?_⟩
    rcases List.mem_append.mp hp with hp | hp
    · obtain ⟨b, hb, h₁, h₂⟩ := harcs p hp
      exact ⟨b, hb, h₁, by omega⟩
    · obtain ⟨b, hb, h₁, h₂⟩ := harcs' p hp
      exact ⟨b, hb, by omega, h₂⟩
  · obtain ⟨new, hnew, hcalls, hrun, hmade⟩ := h.calls
    obtain ⟨new', hnew', hcalls', hrun', hmade'⟩ := h'.calls
    refine ⟨new ++ new', by rw [hnew', hnew, List.append_assoc], fun c hc => ?_,
      hrun.trans hrun', fun a => ?_⟩
    · exact (List.mem_append.mp hc).elim (hcalls c) fun hc => h.expected (hcalls' c hc)
    · rw [List.countP_append, hmade, hmade']
      split <;> split <;> split <;> omega

/-- The cache has the old fixtures and the new ones. -/
theorem cached_iff (h : Extends s s') (hs : s'.Ok) : s'.Cached b ↔
    s.Cached b ∨ s.heap.length ≤ b ∧ b < s'.heap.length := by
  constructor
  · rintro ⟨g, hg⟩
    by_cases hb : s.heap.length ≤ b
    · exact Or.inr ⟨hb, hs.lt ⟨g, hs.find_of_cache hg⟩⟩
    · obtain ⟨new, -, hexpected, hrun, -⟩ := h.calls
      have hfind : s.find g = some b := (hrun.source (hs.find_of_cache hg)).resolve_right
        fun hm => hb (hexpected _ hm).2
      have hp : g ∉ s.permanent := fun hp =>
        hs.disjoint g (h.permanent ▸ hp) (AList.lookup_isSome.mp (by rw [hg]; rfl))
      unfold Inner.find at hfind
      rw [AList.lookup_eq_none.mpr hp] at hfind
      exact Or.inl ⟨g, hfind⟩
  · rintro (⟨g, hg⟩ | ⟨h₁, h₂⟩)
    · exact ⟨g, h.cache g b hg⟩
    · exact h.fresh b h₁ h₂

end Extends

/-! ## The parts of a setup -/

/-- A call that is expected is logged. -/
theorem extends_log {c : FixtureCall} (hc : s.Expected c) (hs : Registry.Step s.find c s.find)
    (hm : ∀ a, isMade a c = false) : Extends s (s.log c) := by
  refine { Extends.refl s with
    calls := ⟨[c], rfl, by simpa using hc, .single hs, fun a => ?_⟩ }
  have hlen : (s.log c).heap = s.heap := rfl
  rw [List.countP_singleton, hm, hlen, if_neg Bool.false_ne_true, if_neg (by omega)]

theorem Ok.log (h : s.Ok) (c : FixtureCall) : (s.log c).Ok :=
  ⟨h.permanent, h.cache, h.disjoint, h.inst⟩

section Insert

variable {held : List Arc}

theorem insert_cache (held : List Arc) :
    (s.insert f held).cache.lookup g = if g = f then some s.heap.length else s.cache.lookup g := by
  change (s.cache.insert f s.heap.length).lookup g = _
  by_cases hg : g = f
  · rw [hg, if_pos rfl, AList.lookup_insert]
  · rw [if_neg hg, AList.lookup_insert_ne hg]

theorem insert_find (hf : s.find f = none) (held : List Arc) :
    (s.insert f held).find = Function.update s.find f (some s.heap.length) := by
  obtain ⟨hp, -⟩ := find_eq_none.mp hf
  funext g
  unfold find
  rw [insert_cache]
  change (match s.permanent.lookup g with
    | some a => some a
    | none => if g = f then some s.heap.length else s.cache.lookup g) = _
  by_cases hg : g = f
  · rw [hg, Function.update_self, if_pos rfl, AList.lookup_eq_none.mpr hp]
  · rw [Function.update_of_ne hg, if_neg hg]

/-- A new fixture of a type that has none extends the maps. -/
theorem extends_insert (hf : s.find f = none) (held : List Arc) :
    Extends s (s.insert f held) := by
  obtain ⟨hp, hc⟩ := find_eq_none.mp hf
  have hlen : (s.insert f held).heap.length = s.heap.length + 1 := by simp [insert]
  refine ⟨rfl, fun g a hg => ?_, List.prefix_append _ _, fun a ha ha' => ?_, ⟨_, rfl, ?_⟩,
    ⟨_, rfl, ?_, insert_find hf held ▸ .single (.made hf), fun a => ?_⟩⟩
  · have hne : g ≠ f := fun he => hc (he ▸ AList.lookup_isSome.mp (by rw [hg]; rfl))
    rw [insert_cache, if_neg hne, hg]
  · obtain rfl : a = s.heap.length := by omega
    exact ⟨f, by rw [insert_cache, if_pos rfl]⟩
  · rintro p hp
    obtain ⟨a, -, rfl⟩ := List.mem_map.mp hp
    exact ⟨s.heap.length, rfl, le_rfl, by omega⟩
  · simp [Expected, hf]
  · rw [List.countP_singleton, hlen]
    by_cases ha : s.heap.length = a
    · rw [if_pos (by simpa [isMade] using ha), if_pos (by omega)]
    · rw [if_neg (by simpa [isMade] using ha), if_neg (by omega)]

theorem Ok.insert (h : s.Ok) (hf : s.find f = none) (hheld : ∀ a ∈ held, s.Alive a) :
    (s.insert f held).Ok := by
  obtain ⟨hp, hc⟩ := find_eq_none.mp hf
  have hext := extends_insert hf held
  have hheap : ∀ {a : Nat} {g : TypeId}, s.heap[a]? = some g →
      (s.insert f held).heap[a]? = some g := by
    intro a g hg
    obtain ⟨hlt, -⟩ := List.getElem?_eq_some_iff.mp hg
    change (s.heap ++ [f])[a]? = some g
    rw [List.getElem?_append_left hlt, hg]
  refine ⟨fun g a hg => hheap (h.permanent g a hg), fun g a hg => ?_, fun g hg hg' => ?_,
    fun b a hba => ?_⟩
  · rw [insert_cache] at hg
    split at hg
    · rename_i he
      obtain rfl := Option.some.inj hg
      rw [he]
      exact List.getElem?_concat_length
    · exact hheap (h.cache g a hg)
  · change g ∈ s.cache.insert f s.heap.length at hg'
    rcases (AList.mem_insert _).mp hg' with rfl | hg'
    · exact hp hg
    · exact h.disjoint g hg hg'
  · rcases List.mem_append.mp hba with hba | hba
    · exact ⟨(h.inst b a hba).1, hext.alive (h.inst b a hba).2⟩
    · obtain ⟨a', ha', he⟩ := List.mem_map.mp hba
      obtain ⟨he₁, rfl⟩ := Prod.mk.inj he
      obtain rfl := Holder.inst.inj he₁
      exact ⟨h.lt (hheld _ ha'), hext.alive (hheld _ ha')⟩

end Insert

/-! ## The setup of a fixture -/

/-- The maps stay in order, and are extended by fixtures of some types only. -/
structure Grows (P : TypeId → Prop) (s s' : Inner) : Prop where
  ok : s'.Ok
  ext : Extends s s'
  adds : ∀ g, g ∈ s'.cache → g ∈ s.cache ∨ P g

theorem Grows.refl {P : TypeId → Prop} (h : s.Ok) : Grows P s s :=
  ⟨h, .refl s, fun _ hg => Or.inl hg⟩

theorem Grows.trans {P Q : TypeId → Prop} (h : Grows Q s s') (h' : Grows P s' s'')
    (hQ : ∀ g, Q g → P g) : Grows P s s'' :=
  ⟨h'.ok, h.ext.trans h'.ext, fun g hg => (h'.adds g hg).elim
    (fun hg => (h.adds g hg).imp_right (hQ g)) Or.inr⟩

/-- `F::setup` is called. -/
theorem Grows.logSetup {P : TypeId → Prop} (h : s.Ok) (hf : s.find f = none) :
    Grows P s (s.log (.setup f)) :=
  ⟨h.log _, extends_log hf (.setup hf) fun _ => rfl, fun _ hg => Or.inl hg⟩

/-- A setup returns the fixture that is there. -/
theorem Grows.logReturned {P : TypeId → Prop} (h : s.Ok) (f : TypeId) :
    Grows P s (s.log (.returned f (s.find f))) :=
  ⟨h.log _, extends_log (fun _ hb => hb) .returned fun _ => rfl, fun _ hg => Or.inl hg⟩

end Inner

/-- The setup of `f` may set up `g`, or something that may. -/
def FixtureGraph.Below (G : FixtureGraph) : TypeId → TypeId → Prop :=
  Relation.TransGen fun f d => G.dep f d = true

/-- A fixture does not depend on itself. -/
theorem FixtureGraph.not_below_self (G : FixtureGraph) (f : TypeId) : ¬ G.Below f f := by
  have hwf : WellFounded (Relation.TransGen fun d f => G.dep f d = true) := G.acyclic.transGen
  intro h
  exact hwf.irrefl.irrefl f (Relation.transGen_swap.mp h)

open E2etest.Inner

variable {G : FixtureGraph} {s s' : Inner} {f : TypeId}

/-- **The specification of `Setup::setup`**, given that of `F::setup`. -/
theorem Inner.setup_spec {fSetup : Inner → Inner × Except Unit (Option (List Arc))}
    (hfSetup : ∀ {u u' r}, u.Ok → fSetup u = (u', r) → Grows (G.Below f) u u' ∧
      ∀ held, r = .ok (some held) → ∀ a ∈ held, u'.Alive a)
    (hs : s.Ok) {r : Except Unit (Option Arc)} (h : s.setup f fSetup = (s', r)) :
    Grows (fun g => g = f ∨ G.Below f g) s s' ∧
      (∀ a, s.find f = some a → s' = s.log (.returned f (some a)) ∧ r = .ok (some a)) ∧
      ∀ a, r = .ok (some a) → s'.find f = some a := by
  unfold setup at h
  split at h
  · -- the fixture is there
    rename_i hmem
    obtain ⟨a, ha⟩ : ∃ a, s.find f = some a := by
      cases hfind : s.find f with
      | none =>
        obtain ⟨hp, hc⟩ := find_eq_none.mp hfind
        exact absurd hmem (not_or.mpr ⟨hp, hc⟩)
      | some a => exact ⟨a, rfl⟩
    rw [hs.get_eq, ha] at h
    obtain ⟨rfl, rfl⟩ := Prod.mk.inj h
    refine ⟨?_, fun b hb => ?_, fun b hb => ?_⟩
    · rw [← ha]
      exact .logReturned hs f
    · obtain rfl := Option.some.inj (ha.symm.trans hb)
      exact ⟨rfl, rfl⟩
    · obtain rfl := Option.some.inj (Except.ok.inj hb)
      exact ha
  · rename_i hmem
    have hnone : s.find f = none := find_eq_none.mpr (not_or.mp hmem)
    have hlog : Grows (G.Below f) s (s.log (.setup f)) := .logSetup hs hnone
    have hno : ∀ {a}, s.find f = some a → False := fun ha => by rw [hnone] at ha; cases ha
    split at h
    · -- the new fixture is put into the cache
      rename_i u held hu
      obtain ⟨hgrows, hheld⟩ := hfSetup hlog.ok hu
      have hgrown := hlog.trans hgrows fun _ hg => hg
      have hfind : u.find f = none := by
        refine find_eq_none.mpr ⟨fun hp => hmem (Or.inl (hgrown.ext.permanent ▸ hp)), fun hc => ?_⟩
        exact (hgrown.adds f hc).elim (fun hc => hmem (Or.inr hc)) (G.not_below_self f)
      have hok := hgrown.ok.insert hfind (hheld held rfl)
      have hnew : (u.insert f held).find f = some u.heap.length :=
        hok.find_of_cache (by rw [insert_cache, if_pos rfl])
      have hins : Grows (fun g => g = f ∨ G.Below f g) u (u.insert f held) :=
        ⟨hok, extends_insert hfind held, fun g hg =>
          ((AList.mem_insert _).mp hg).elim (fun he => Or.inr (Or.inl he)) Or.inl⟩
      have hret : Grows (fun g => g = f ∨ G.Below f g) (u.insert f held)
          ((u.insert f held).log (.returned f (some u.heap.length))) := by
        rw [← hnew]
        exact .logReturned hok f
      obtain ⟨rfl, rfl⟩ := Prod.mk.inj h
      refine ⟨(hgrown.trans hins fun _ hg => Or.inr hg).trans hret fun _ hg => hg,
        fun b hb => (hno hb).elim, fun b hb => ?_⟩
      obtain rfl := Option.some.inj (Except.ok.inj hb)
      exact hnew
    · rename_i u hu
      obtain ⟨hgrows, -⟩ := hfSetup hlog.ok hu
      have hgrown := hlog.trans hgrows fun _ hg => hg
      have hfind : u.find f = none := by
        refine find_eq_none.mpr ⟨fun hp => hmem (Or.inl (hgrown.ext.permanent ▸ hp)), fun hc => ?_⟩
        exact (hgrown.adds f hc).elim (fun hc => hmem (Or.inr hc)) (G.not_below_self f)
      have hret : Grows (G.Below f) u (u.log (.returned f none)) := by
        rw [← hfind]
        exact .logReturned hgrown.ok f
      obtain ⟨rfl, rfl⟩ := Prod.mk.inj h
      exact ⟨hgrown.trans (P := fun g => g = f ∨ G.Below f g)
        (hret.trans (.refl hret.ok) fun _ hg => Or.inr hg) fun _ hg => Or.inr hg,
        fun b hb => (hno hb).elim, fun b hb => by cases hb⟩
    · rename_i u hu
      obtain ⟨hgrows, -⟩ := hfSetup hlog.ok hu
      obtain ⟨rfl, rfl⟩ := Prod.mk.inj h
      exact ⟨(hlog.trans hgrows fun _ hg => hg).trans (.refl hgrows.ok) fun _ hg => Or.inr hg,
        fun b hb => (hno hb).elim, fun b hb => by cases hb⟩

/-- **What a call of `F::setup` does**, when it sets up only what `F` may depend on. -/
theorem Script.run_spec (G : FixtureGraph) :
    ∀ (sc : Script) {f : TypeId} {got : List Arc} {s s' : Inner}
      {r : Except Unit (Option (List Arc))}, sc.respects G f = true → s.Ok →
      (∀ a ∈ got, s.Alive a) → sc.run got s = (s', r) →
      Grows (G.Below f) s s' ∧ ∀ held, r = .ok (some held) → ∀ a ∈ held, s'.Alive a
  | .done keep, f, got, s, s', r => by
    intro _ hs hgot h
    obtain ⟨rfl, rfl⟩ := Prod.mk.inj h
    refine ⟨.refl hs, fun held hheld a ha => ?_⟩
    obtain rfl := Option.some.inj (Except.ok.inj hheld)
    obtain ⟨i, -, hi⟩ := List.mem_filterMap.mp ha
    exact hgot a (List.mem_of_getElem? hi)
  | .skip, f, got, s, s', r => by
    intro _ hs _ h
    obtain ⟨rfl, rfl⟩ := Prod.mk.inj h
    exact ⟨.refl hs, nofun⟩
  | .abort, f, got, s, s', r => by
    intro _ hs _ h
    obtain ⟨rfl, rfl⟩ := Prod.mk.inj h
    exact ⟨.refl hs, nofun⟩
  | .setup d run next, f, got, s, s', r => by
    intro hG hs hgot h
    simp only [Script.respects, Bool.and_eq_true] at hG
    obtain ⟨⟨hdep, hrun⟩, hnext⟩ := hG
    have hbelow : ∀ g, g = d ∨ G.Below d g → G.Below f g := fun g hg =>
      hg.elim (fun he => he ▸ .single hdep) (Relation.TransGen.head hdep)
    have hspec := fun {u r'} (hu : s.setup d (run.run []) = (u, r')) =>
      Inner.setup_spec (fun hok hrun' => run_spec G run hrun hok (by simp) hrun') hs hu
    unfold Script.run at h
    split at h
    · rename_i u a hu
      obtain ⟨hgrows, -, hret⟩ := hspec hu
      obtain ⟨h₁, h₂⟩ := run_spec G next hnext hgrows.ok (by
        intro b hb
        rcases List.mem_append.mp hb with hb | hb
        · exact hgrows.ext.alive (hgot b hb)
        · exact List.mem_singleton.mp hb ▸ ⟨d, hret a rfl⟩) h
      exact ⟨(hgrows.trans (.refl hgrows.ok) hbelow).trans h₁ fun _ hg => hg, h₂⟩
    · rename_i u hu
      obtain ⟨hgrows, -⟩ := hspec hu
      obtain ⟨h₁, h₂⟩ := run_spec G next hnext hgrows.ok
        (fun b hb => hgrows.ext.alive (hgot b hb)) h
      exact ⟨(hgrows.trans (.refl hgrows.ok) hbelow).trans h₁ fun _ hg => hg, h₂⟩
    · rename_i u hu
      obtain ⟨hgrows, -⟩ := hspec hu
      obtain ⟨rfl, rfl⟩ := Prod.mk.inj h
      exact ⟨hgrows.trans (.refl hgrows.ok) hbelow, nofun⟩
  | .get d next, f, got, s, s', r => by
    intro hG hs hgot h
    unfold Script.run at h
    rw [hs.get_eq] at h
    split at h
    · rename_i a ha
      refine run_spec G next hG hs (fun b hb => ?_) h
      rcases List.mem_append.mp hb with hb | hb
      · exact hgot b hb
      · exact List.mem_singleton.mp hb ▸ ⟨d, Except.ok.inj ha⟩
    · exact run_spec G next hG hs hgot h
    · rename_i e he
      cases he
  | .clone i j next, f, got, s, s', r => by
    intro hG hs hgot h
    unfold Script.run at h
    split at h
    · rename_i b hb
      refine run_spec G next hG hs (fun c hc => ?_) h
      rcases List.mem_append.mp hc with hc | hc
      · exact hgot c hc
      · obtain rfl := List.mem_singleton.mp hc
        obtain ⟨a, -, ha⟩ := Option.bind_eq_some_iff.mp hb
        obtain ⟨p, hp, rfl⟩ := List.mem_map.mp (List.mem_of_getElem? ha)
        obtain ⟨hmem, hholder⟩ := List.mem_filter.mp hp
        obtain ⟨holder, c⟩ := p
        obtain rfl : holder = .inst a := of_decide_eq_true hholder
        exact (hs.inst a c hmem).2
    · exact run_spec G next hG hs hgot h

/-- **`Setup::setup` with user code** that respects the dependencies: the maps are extended, the
fixture that is there is returned, and what is returned is there. -/
theorem Inner.setup_run_spec {sc : Script} (hG : sc.respects G f = true) (hs : s.Ok)
    {r : Except Unit (Option Arc)} (h : s.setup f (sc.run []) = (s', r)) :
    Grows (fun g => g = f ∨ G.Below f g) s s' ∧
      (∀ a, s.find f = some a → s' = s.log (.returned f (some a)) ∧ r = .ok (some a)) ∧
      ∀ a, r = .ok (some a) → s'.find f = some a :=
  Inner.setup_spec (fun hok hrun => sc.run_spec G hG hok (by simp) hrun) hs h

end E2etest
