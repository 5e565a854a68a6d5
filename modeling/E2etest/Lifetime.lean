import E2etest.Holding

/-!
# How long a fixture lasts

`Inner.Keeps` is what no step of the callers of the manager, nor of a task, undoes: a fixture that
somebody holds stays in the cache, and a fixture in the maps keeps what it holds. `Lasting` is its
closure, for what can be reached from a fixture that is held all the time.

`group_fixture_lasts`: from the moment a group's setup is recorded as passed until its fixture is
dropped, everything that can be reached from the fixture stays where it is, is not torn down, is not
set up again, and is what every setup of its type returns.
-/

namespace E2etest

open Async Text

namespace Inner

/-- What no step undoes. -/
structure Keeps (s s' : Inner) : Prop where
  permanent : s'.permanent = s.permanent
  cache : ∀ f b, s.cache.lookup f = some b → s.holders b ≠ [] → s'.cache.lookup f = some b
  inst : ∀ b c, s.Alive b → (.inst b, c) ∈ s.arcs → (.inst b, c) ∈ s'.arcs
  calls : ∃ new, s'.calls = s.calls ++ new ∧
    ∀ c ∈ new, s.Expected c ∨ ∃ b, c = .teardown b ∧ ¬ s.Alive b

variable {s s' s'' : Inner} {a b : Arc} {f : TypeId}

/-- The maps stay as they are. -/
theorem Keeps.same (hperm : s'.permanent = s.permanent) (hcache : s'.cache = s.cache)
    (hcalls : s'.calls = s.calls)
    (hinst : ∀ b c, s.Alive b → (.inst b, c) ∈ s.arcs → (.inst b, c) ∈ s'.arcs) : Keeps s s' where
  permanent := hperm
  cache f b hf _ := by rw [hcache, hf]
  inst := hinst
  calls := ⟨[], by rw [hcalls, List.append_nil], by simp⟩

theorem Keeps.reaches (h : Keeps s s') (hb : s.Reaches a b) (ha : ∀ c, s.Reaches a c → s.Alive c) :
    s'.Reaches a b := by
  induction hb with
  | refl => exact .refl
  | tail hac hcd ih => exact ih.tail (h.inst _ _ (ha _ hac) hcd)

/-- What the holder of `a` relies on from `s` to `s'`. -/
structure Lasting (a : Arc) (s s' : Inner) : Prop where
  permanent : s'.permanent = s.permanent
  reach : ∀ b, s.Reaches a b → s'.Reaches a b
  cache : ∀ b, s.Reaches a b → ∀ f, s.cache.lookup f = some b → s'.cache.lookup f = some b
  calls : ∃ new, s'.calls = s.calls ++ new ∧ ∀ b, s.Reaches a b → .teardown b ∉ new ∧
    ∀ f, s.find f = some b → .setup f ∉ new ∧ ∀ r, .returned f r ∈ new → r = some b

theorem Lasting.refl (a : Arc) (s : Inner) : Lasting a s s where
  permanent := rfl
  reach _ h := h
  cache _ _ _ h := h
  calls := ⟨[], by simp, by simp⟩

theorem Lasting.find (h : Lasting a s s') (hb : s.Reaches a b) (hf : s.find f = some b) :
    s'.find f = some b := by
  unfold Inner.find at hf ⊢
  rw [h.permanent]
  split
  · rename_i c hc
    rwa [hc] at hf
  · rename_i hc
    rw [hc] at hf
    exact h.cache b hb f hf

/-- What is held all the time lasts for one more step. -/
theorem Lasting.snoc (h : Lasting a s s') (hk : Keeps s' s'')
    (hheld : ∀ b, s'.Reaches a b → s'.Alive b ∧ s'.holders b ≠ []) : Lasting a s s'' := by
  refine ⟨hk.permanent.trans h.permanent,
    fun b hb => hk.reaches (h.reach b hb) fun c hc => (hheld c hc).1, fun b hb f hf => ?_, ?_⟩
  · exact hk.cache f b (h.cache b hb f hf) (hheld b (h.reach b hb)).2
  · obtain ⟨new, hnew, hold⟩ := h.calls
    obtain ⟨new', hnew', hold'⟩ := hk.calls
    refine ⟨new ++ new', by rw [hnew', hnew, List.append_assoc], fun b hb => ?_⟩
    obtain ⟨halive, -⟩ := hheld b (h.reach b hb)
    refine ⟨fun hc => ?_, fun f hf => ⟨fun hc => ?_, fun r hc => ?_⟩⟩ <;>
      rcases List.mem_append.mp hc with hc | hc
    · exact (hold b hb).1 hc
    · rcases hold' _ hc with he | ⟨c, he, hdead⟩
      · exact he
      · obtain rfl := FixtureCall.teardown.inj he
        exact hdead halive
    · exact ((hold b hb).2 f hf).1 hc
    · rcases hold' _ hc with he | ⟨c, he, -⟩
      · rw [Expected, h.find hb hf] at he
        cases he
      · cases he
    · exact ((hold b hb).2 f hf).2 r hc
    · rcases hold' _ hc with he | ⟨c, he, -⟩
      · exact he b (h.find hb hf)
      · cases he

end Inner

namespace State

open E2etest.Inner

variable {G : FixtureGraph} {s s' : State} {l : Label} {n : NodeId} {a b : Arc}

/-- What can be reached from what is held is in the maps, and is held. -/
theorem Owned.reaches (h : s.Owned) (ha : (.node n, a) ∈ s.inner.arcs) (hb : s.inner.Reaches a b) :
    s.inner.Alive b ∧ s.inner.holders b ≠ [] := by
  have hholds : ∀ {k : Holder} {c : Arc}, (k, c) ∈ s.inner.arcs → s.inner.holders c ≠ [] :=
    fun hkc => List.ne_nil_of_mem (mem_holders.mpr hkc)
  cases hb with
  | refl =>
    refine ⟨(h.target _ a ha).resolve_right ?_, hholds ha⟩
    rintro ⟨m, pending, he, -⟩
    cases he
  | tail _ hcb => exact ⟨(h.ok.inst _ b hcb).2, hholds hcb⟩

/-- Only a fixture that is being torn down loses what it holds. -/
theorem keeps_release {s : Inner} {k : Holder} (hk : ∀ b, k = .inst b → ¬ s.Alive b) :
    s.Keeps (s.release k) :=
  .same rfl rfl rfl fun b _ hb hbc => mem_release.mpr ⟨hbc, fun he => hk b he.symm hb⟩

theorem keeps_hold (s : Inner) (k : Holder) (a : Arc) : s.Keeps (s.hold k a) :=
  .same rfl rfl rfl fun _ _ _ hbc => mem_hold.mpr (Or.inl hbc)

/-- **What no step undoes.** -/
theorem keeps_step (h : s.Uses G l s') (hs : s.Owned) : s.inner.Keeps s'.inner := by
  have hrefl : s.inner.Keeps s.inner := .same rfl rfl rfl fun _ _ _ hbc => hbc
  cases h with
  | call ha h =>
    cases h with
    | enter | record _ | spawnSetup | spawnTeardown | joinTest _ | joinTeardown _ | report =>
      exact hrefl
    | spawnTest => exact keeps_hold _ _ _
    | @joinSetup n f r hn =>
      rcases r with e | _ | a
      · exact hrefl
      · exact hrefl
      · refine .same rfl rfl rfl fun b c _ hbc => mem_hold.mpr (Or.inl (mem_release.mpr ⟨hbc, ?_⟩))
        nofun
    | drop => exact keeps_release nofun
  | act h =>
    cases h with
    | lockSetup _ _ | lockTeardown _ _ | keep _ _ _ _ | nextPass _ | sweepEnd _ => exact hrefl
    | cancelSetup _ _ | cancelTeardown _ _ =>
      rw [panicked_inner]
      exact hrefl
    | @setup n f script inner r hn hG hr =>
      obtain ⟨⟨-, hext, -⟩, -⟩ := setup_run_spec hG hs.ok hr
      obtain ⟨new, hnew, hexpected, -⟩ := hext.calls
      obtain ⟨arcs, harcs, -⟩ := hext.arcs
      have hkeeps : s.inner.Keeps inner := ⟨hext.permanent, fun f b hf _ => hext.cache f b hf,
        fun b c _ hbc => harcs ▸ List.mem_append_left _ hbc,
        new, hnew, fun c hc => Or.inl (hexpected c hc)⟩
      rw [setupPanicked_inner]
      rcases r with e | _ | a
      · exact hkeeps
      · exact hkeeps
      · exact ⟨hkeeps.permanent, hkeeps.cache,
          fun b c hb hbc => mem_hold.mpr (Or.inl (hkeeps.inst b c hb hbc)), hkeeps.calls⟩
    | clone _ _ => exact keeps_hold _ _ _
    | testEnd _ =>
      rw [panicked_inner]
      exact keeps_release nofun
    | @take n f pending foundAny a hn hc hf h1 =>
      refine ⟨rfl, fun g b hg hb => ?_, fun b c _ hbc => mem_hold.mpr (Or.inl hbc), [], ?_, by simp⟩
      · have hne : g ≠ f := by
          rintro rfl
          obtain rfl := Option.some.inj (hg.symm.trans hc)
          exact hb ((strongCount_eq_one_iff hs.ok hc).mp h1)
        exact (AList.lookup_erase_ne hne).trans hg
      · exact (List.append_nil _).symm
    | @unwrap n pending a hn _ =>
      obtain ⟨-, f, hf, hnone⟩ := hs.extracted n pending a hn
      refine ⟨rfl, fun g b hg _ => hg, fun b c _ hbc => mem_release.mpr ⟨hbc, nofun⟩,
        [.teardown a], rfl, fun c hc => Or.inr ⟨a, List.mem_singleton.mp hc, ?_⟩⟩
      exact hs.ok.not_alive hf hnone
    | unwrapFails hn h1 => exact absurd (hs.strongCount_extracted hn) h1
    | @teardownEnd n pending a hn =>
      refine keeps_release fun b he => ?_
      obtain rfl := Holder.inst.inj he
      exact hs.tearing n pending a hn
    | @teardownFails n pending a hn =>
      rw [panicked_inner]
      refine keeps_release fun b he => ?_
      obtain rfl := Holder.inst.inj he
      exact hs.tearing n pending a hn

end State

/-! ## The fixture of an open group -/

/-- The setup of the node has been recorded as passed, and its fixture has not been dropped. -/
def Open (n : Node) (w : List OpCall) : Prop :=
  recorded n.id n.path .setupPassed ∈ w ∧ ∀ a, ⟨.drop n.id a, ()⟩ ∉ w

/-- The node that drops its fixture. -/
def dropping : Op → Option NodeId
  | .drop n _ => some n
  | _ => none

theorem open_iff {n : Node} {w : List OpCall} : Open n w ↔
    (∃ c ∈ w, c.1 = .record n.id n.path .setupPassed) ∧ ∀ c ∈ w, dropping c.1 ≠ some n.id := by
  refine and_congr ⟨fun h => ⟨_, h, rfl⟩, ?_⟩ ⟨fun h c hc he => ?_, fun h a ha => h _ ha rfl⟩
  · rintro ⟨⟨op, r⟩, hc, rfl⟩
    exact hc
  · obtain ⟨op, r⟩ := c
    cases op with
    | drop m a =>
      obtain rfl := Option.some.inj he
      exact h a hc
    | _ => cases he

instance (n : Node) (w : List OpCall) : Decidable (Open n w) := decidable_of_iff _ open_iff.symm

theorem Open.proj {n : Node} {w : List OpCall} (h : Open n w) : Open n (proj n.id w) :=
  ⟨mem_proj.mpr ⟨h.1, rfl⟩, fun a ha => h.2 a (mem_proj.mp ha).1⟩

theorem not_passed_singleWord {n : NodeId} {job : Job} {dt : Duration}
    {r : Except Unit job.Output} {name : Str} {event : Event} :
    recorded n name event ∉ singleWord n job dt r := by
  rcases r with e | a <;> simp [singleWord]

/-- A setup is recorded as passed at its end, if it passed. -/
theorem passed_openWord {n : NodeId} {name : Str} {f : Fixture} {dt : Duration}
    {r : Except Unit (Option Arc)} {s : List OpCall} (hs : s <+: openWord n name .group f dt r)
    (h : recorded n name .setupPassed ∈ s) :
    (∃ a, r = .ok (some a)) ∧ s = openWord n name .group f dt r := by
  have hsplit : openWord n name .group f dt r = (⟨.enter n, ()⟩ :: recorded n name .setupLaunched ::
      singleWord n (.setup f.typeId) (f.timeoutSetup.getD dt) r) ++
        [recorded n name (setupEvent .group r)] := rfl
  rw [hsplit] at hs ⊢
  rcases prefix_append_cases hs with hpre | ⟨s', rfl, hpre⟩
  · have := hpre.subset h
    simp [not_passed_singleWord] at this
  · rcases List.prefix_cons_iff.mp hpre with rfl | ⟨s'', rfl, hnil⟩
    · simp [not_passed_singleWord] at h
    · obtain rfl := List.prefix_nil.mp hnil
      refine ⟨?_, rfl⟩
      rcases r with e | _ | a
      · simp [not_passed_singleWord, setupEvent] at h
      · simp [not_passed_singleWord, setupEvent] at h
      · exact ⟨a, rfl⟩

theorem not_passed_closeWord {n : NodeId} {name : Str} {f : Fixture} {dt : Duration}
    {r : Except Unit (Option Arc)} {down : Except Unit Unit} :
    recorded n name .setupPassed ∉ closeWord n name f dt r down := by
  intro h
  rcases List.mem_append.mp h with h | h
  · rcases r with e | _ | a <;> simp at h
  · rcases down with e | u <;> simp [teardownWord, teardownEvent, not_passed_singleWord] at h

/-- **An open group holds its fixture**, the same all the time. -/
theorem exists_open {config : Config} {g : Group} {w : List OpCall}
    (hw : RunWord config g w) {n : Node} (hn : n ∈ g.nodes [] []) (hg : n.id.isTest = false) :
    ∃ a, ∀ s, s <+: w → Open n s → stage s n.id = .holding a := by
  obtain hnil | ⟨r, mid, down, hspan, hmid⟩ := hw.proj hn
  · refine ⟨0, fun s hs ho => absurd ho.proj.1 ?_⟩
    have hpre : proj n.id s <+: proj n.id w := proj_mono hs
    rw [hnil] at hpre
    rw [List.prefix_nil.mp hpre]
    exact List.not_mem_nil
  have hmid : mid = [] := by
    obtain ⟨a, -, hmid⟩ | ⟨-, hmid⟩ := hmid
    · rwa [hg, if_neg Bool.false_ne_true] at hmid
    · exact hmid
  have hkind : n.kind = .group := by rw [Node.kind, hg]; rfl
  rw [hmid, hkind, spanWord, List.nil_append] at hspan
  have hpassed : ∀ s, s <+: w → Open n s → ∃ a, r = .ok (some a) := by
    intro s hs ho
    have hmem := (hspan ▸ proj_mono hs).subset ho.proj.1
    rcases List.mem_append.mp hmem with hmem | hmem
    · exact (passed_openWord List.prefix_rfl hmem).1
    · exact absurd hmem not_passed_closeWord
  by_cases hr : ∃ a, r = .ok (some a)
  swap
  · exact ⟨0, fun s hs ho => absurd (hpassed s hs ho) hr⟩
  obtain ⟨a, rfl⟩ := hr
  refine ⟨a, fun s hs ho => ?_⟩
  have hproj : proj n.id s = openWord n.id n.path .group n.fixture config.defaultTimeout
      (.ok (some a)) := by
    rcases prefix_append_cases (hspan ▸ proj_mono hs) with hpre | ⟨s', hs', hpre⟩
    · exact (passed_openWord hpre ho.proj.1).2
    · rcases List.prefix_cons_iff.mp hpre with rfl | ⟨s'', rfl, -⟩
      · rw [hs', List.append_nil]
      · refine absurd ?_ (ho.proj.2 a)
        rw [hs']
        simp
  unfold stage
  rw [hproj, after_openWord]
  rfl

section Run

variable {G : FixtureGraph} {config : Config} {g : Group} {x y z : Sys} {t u : List Label}

/-- What a node holds all the time lasts. -/
theorem lasting_of_run (hx : run config g = some x) (h : Sys.Run G x t y) {n : NodeId} {a : Arc}
    (hu : Sys.Run G y u z)
    (hheld : ∀ v s, v <+: u → At G x (t ++ v) s → (.node n, a) ∈ s.inner.arcs) :
    Inner.Lasting a y.state.inner z.state.inner := by
  induction hu with
  | refl => exact .refl a _
  | @tail v z z' l hv hs ih =>
    have hlast := ih fun v' s hpre => hheld v' s (hpre.trans (List.prefix_append _ _))
    cases l with
    | none =>
      cases hs
      exact hlast
    | some l =>
      have hrun := h.trans hv
      have hsound := sound_of_run hx hrun
      have huses := hsound.held.uses (joint_of_step hx hrun hs)
      have ha := hheld v z.state (List.prefix_append _ _) ⟨_, hrun⟩
      exact hlast.snoc (State.keeps_step huses hsound.owned) fun b => hsound.owned.reaches ha

/-- What is in the maps has not been torn down. -/
theorem Sound.not_torn {σ : NodeId → Stage} {s : State} (h : Sound config σ s) {f : TypeId}
    {b : Arc} (hf : s.inner.find f = some b) : .teardown b ∉ s.inner.calls := by
  refine List.count_eq_zero.mp (h.logged.kept b ?_)
  rcases h.owned.ok.find_iff.mp hf with hp | hc
  · have hbare := State.bare_withPermanent config.permanentFixtures
    rw [h.logged.permanent] at hp
    exact Or.inr (Or.inl (List.getElem?_eq_some_iff.mp (hbare.permanent f b hp)).1)
  · exact Or.inl (Or.inl ⟨f, hc⟩)

/-- **How long the fixture of a group lasts.** While the setup of the group is recorded as passed and
its fixture is not dropped, the group holds one fixture; what can be reached from it stays in the
maps, is not torn down and not set up again, and is what every setup of its type returns. No body of
a test keeps an `Arc` past its end, as everywhere here. -/
theorem group_fixture_lasts (hx : run config g = some x) (h : Sys.Run G x t y)
    (hu : Sys.Run G y u z) {n : Node} (hn : n ∈ g.nodes [] []) (hg : n.id.isTest = false)
    (hy : Open n (calls t)) (hz : Open n (calls (t ++ u))) :
    ∃ a, y.state.inner.heldBy (.node n.id) = [a] ∧ z.state.inner.heldBy (.node n.id) = [a] ∧
      ∀ b, y.state.inner.Reaches a b → z.state.inner.Reaches a b ∧
        ∃ f, y.state.inner.find f = some b ∧ z.state.inner.find f = some b ∧
          (y.state.inner.Cached b → z.state.inner.Cached b) ∧
          .teardown b ∉ z.state.inner.calls ∧
          ∃ new, z.state.inner.calls = y.state.inner.calls ++ new ∧ .setup f ∉ new ∧
            ∀ r, .returned f r ∈ new → r = some b := by
  have hrun := h.trans hu
  obtain ⟨w, hw, hpre⟩ := run_prefix hx hrun
  obtain ⟨a, ha⟩ := exists_open hw hn hg
  -- at every point in between the group holds `a`
  have hopen : ∀ v, v <+: u → stage (calls (t ++ v)) n.id = .holding a := by
    rintro v ⟨v', rfl⟩
    have hcalls : calls (t ++ v) <+: calls (t ++ (v ++ v')) := by
      rw [← List.append_assoc, calls_append (t ++ v)]
      exact List.prefix_append _ _
    refine ha _ (hcalls.trans hpre) ⟨?_, fun c hc => hz.2 c (hcalls.subset hc)⟩
    rw [calls_append]
    exact List.mem_append_left _ hy.1
  have hheld : ∀ v s, v <+: u → At G x (t ++ v) s → s.inner.heldBy (.node n.id) = [a] := by
    rintro v s hv ⟨p, hp⟩
    rw [(sound_of_run hx hp).held.node n.id, hopen v hv]
    rfl
  have hlast := lasting_of_run hx h (n := n.id) (a := a) hu fun v s hv hs => by
    rw [← Inner.mem_heldBy, hheld v s hv hs]
    exact List.mem_singleton_self a
  have hy₀ : y.state.inner.heldBy (.node n.id) = [a] :=
    hheld [] y.state List.nil_prefix ⟨_, by simpa using h⟩
  refine ⟨a, hy₀, hheld u z.state List.prefix_rfl ⟨_, hrun⟩, fun b hb => ⟨hlast.reach b hb, ?_⟩⟩
  have hmem : (.node n.id, a) ∈ y.state.inner.arcs := by
    rw [← Inner.mem_heldBy, hy₀]
    exact List.mem_singleton_self a
  obtain ⟨⟨f, hf⟩, -⟩ := (sound_of_run hx h).owned.reaches hmem hb
  obtain ⟨new, hnew, hquiet⟩ := hlast.calls
  refine ⟨f, hf, hlast.find hb hf, fun ⟨k, hk⟩ => ⟨k, hlast.cache b hb k hk⟩,
    (sound_of_run hx hrun).not_torn (hlast.find hb hf), new, hnew, ((hquiet b hb).2 f hf)⟩

/-- The fixture of the group holds that of the root, and that of the first test holds both. -/
def nestedScripts : Scenario where
  script
    | .group [] => .done []
    | .group _ => .setup 0 (.done []) (.done [0])
    | .test _ _ => .setup 1 (.done []) (.done [0])

/-- The group that has the tests. -/
def subgroup : Node := ⟨.group [0], [['r']], ['a'], { typeId := 1 }⟩

/-- The fixture of the first test is torn down while the group is open. -/
theorem group_fixture_lasts_twoTests : ∃ x t y u z, run {} twoTests = some x ∧
    Sys.Run .onSmaller x t y ∧ Sys.Run .onSmaller y u z ∧ .teardown 2 ∈ z.state.inner.calls ∧
    ∃ a, y.state.inner.heldBy (.node subgroup.id) = [a] ∧
      z.state.inner.heldBy (.node subgroup.id) = [a] ∧
      ∀ b, y.state.inner.Reaches a b → z.state.inner.Reaches a b ∧
        ∃ f, y.state.inner.find f = some b ∧ z.state.inner.find f = some b ∧
          (y.state.inner.Cached b → z.state.inner.Cached b) ∧
          .teardown b ∉ z.state.inner.calls ∧
          ∃ new, z.state.inner.calls = y.state.inner.calls ++ new ∧ .setup f ∉ new ∧
            ∀ r, .returned f r ∈ new → r = some b := by
  obtain ⟨x, t, y, u, z, hx, h, hu, hP⟩ := exists_runs_of_reachesThen .onSmaller nestedScripts {}
    twoTests 16 19 (fun t _ u s => .teardown 2 ∈ s.inner.calls ∧ Open subgroup (calls t) ∧
      Open subgroup (calls (t ++ u))) (by decide +kernel)
  obtain ⟨hdown, hy, hz⟩ := of_decide_eq_true hP
  exact ⟨x, t, y, u, z, hx, h, hu, hdown,
    group_fixture_lasts hx h hu (n := subgroup) (by decide) rfl hy hz⟩

end Run

end E2etest
