import E2etest.Overlap

/-!
# The event log of a run

The log of a completed run, read by paths (`event_protocol`): what each node records is one of a few
words (`nodeEvents`), what stands below a group is recorded between the `SetupPassed` and the
`TeardownLaunched` of the group, and nothing is recorded below a group whose setup did not pass. A
node that is let through has its events, behind setups that passed.

The paths have to be pairwise distinct, since the log keeps nothing else of a node.
-/

namespace E2etest

open Async Text Prog

theorem entries_filter {P : EventEntry → Bool} {Q : OpCall → Bool} {w : List OpCall}
    (h : ∀ c ∈ w, ∀ e, entryOf c = some e → P e = Q c) :
    (entries w).filter P = entries (w.filter Q) := by
  unfold entries
  rw [List.filter_filterMap, List.filterMap_filter]
  refine List.filterMap_congr fun c hc => ?_
  cases he : entryOf c with
  | none => simp
  | some e => by_cases hq : Q c = true <;> simp [Option.filter, h c hc e he, hq]

/-- Every entry is recorded under the path of a node. -/
theorem RunWord.entry_path {config : Config} {g : Group} {w : List OpCall} (hw : RunWord config g w)
    {c : OpCall} (hc : c ∈ w) {e : EventEntry} (he : entryOf c = some e) :
    ∃ m ∈ g.nodes [] [], m.id = c.1.node ∧ e.name = m.path := by
  obtain ⟨m, hm, hid⟩ := hw.nodes c hc
  have hproj : c ∈ E2etest.proj m.id w := mem_proj.mpr ⟨hc, hid.symm⟩
  have hspan := (hw.proj hm).resolve_left (List.ne_nil_of_mem hproj)
  obtain ⟨r, body, down, hentries⟩ := hspan.entries
  have hmem : e ∈ entries (E2etest.proj m.id w) := List.mem_filterMap.mpr ⟨c, hproj, he⟩
  rw [hentries, List.mem_map] at hmem
  obtain ⟨event, -, rfl⟩ := hmem
  exact ⟨m, hm, hid, rfl⟩

theorem Group.DistinctPaths.path_iff {g : Group} (hg : g.DistinctPaths) {n m : Node}
    (hn : n ∈ g.nodes [] []) (hm : m ∈ g.nodes [] []) : n.path = m.path ↔ n.id = m.id := by
  constructor
  · intro h
    rw [List.inj_on_of_nodup_map hg hn hm h]
  · intro h
    rw [List.inj_on_of_nodup_map (Group.nodes_ids_nodup [] [] g) hn hm h]

section Word

variable {config : Config} {g : Group} {w : List OpCall} {n m : Node}

theorem RunWord.entries_at (hw : RunWord config g w) (hg : g.DistinctPaths)
    (hn : n ∈ g.nodes [] []) :
    ((entries w).filter fun e => e.name = n.path) = entries (E2etest.proj n.id w) := by
  refine entries_filter fun c hc e he => ?_
  obtain ⟨k, hk, hid, hname⟩ := hw.entry_path hc he
  rw [hname, ← hid, decide_eq_decide]
  exact hg.path_iff hk hn

theorem RunWord.entries_at₂ (hw : RunWord config g w) (hg : g.DistinctPaths)
    (hn : n ∈ g.nodes [] []) (hm : m ∈ g.nodes [] []) :
    ((entries w).filter fun e => e.name = n.path ∨ e.name = m.path) =
      entries (proj₂ n.id m.id w) := by
  refine entries_filter fun c hc e he => ?_
  obtain ⟨k, hk, hid, hname⟩ := hw.entry_path hc he
  rw [hname, ← hid, decide_eq_decide]
  exact or_congr (hg.path_iff hk hn) (hg.path_iff hk hm)

end Word

/-- The events recorded under a path, in order. -/
def Statistics.eventsAt (s : Statistics) (path : Str) : List Event :=
  (s.events.filter fun e => e.name = path).map EventEntry.event

/-- The setup in a span has passed when the span says so. -/
theorem IsSpan.setupPassed_iff {m : Node} {dt : Duration} {w : List OpCall} (h : IsSpan m dt w) :
    SetupPassed m w ↔ .setupPassed ∈ (E2etest.entries w).map EventEntry.event := by
  obtain ⟨r, mid, down, rfl, hmid⟩ := h
  simp only [spanWord, entries_append, entries_openWord, entries_closeWord]
  obtain ⟨a, rfl, -⟩ | ⟨hne, rfl⟩ := hmid
  · refine iff_of_true ⟨a, ?_⟩ (by simp [setupEvent])
    simp [SetupReturned, openWord, setupWord, singleWord]
  · rcases r with e | _ | a
    · cases m.kind <;> rcases down with e' | u <;>
        simp [SetupPassed, SetupReturned, openWord, setupWord, singleWord, closeWord, teardownWord,
          setupEvent, teardownEvent]
    · cases m.kind <;> rcases down with e' | u <;>
        simp [SetupPassed, SetupReturned, openWord, setupWord, singleWord, closeWord, teardownWord,
          setupEvent, teardownEvent]
    · exact absurd rfl (hne a)

/-- The log says that the setups of the groups around the node passed. -/
def Statistics.Behind (s : Statistics) (g : Group) (n : Node) : Prop :=
  ∀ m ∈ g.nodes [] [], m.id.Encloses n.id → .setupPassed ∈ s.eventsAt m.path

/-- What the log of a run with this filter looks like. -/
structure EventProtocol (g : Group) (filter : Filter) (s : Statistics) : Prop where
  /-- A node goes through its phases once, or does not begin. -/
  phases : ∀ n ∈ g.nodes [] [], s.eventsAt n.path = [] ∨
    ∃ r body down, s.eventsAt n.path = nodeEvents n.kind r body down
  /-- A node begins when something is included, it and the groups around it are let through, and the
  setups of these passed, and only then. -/
  begins : ∀ n ∈ g.nodes [] [], s.eventsAt n.path ≠ [] ↔
    s.included ≠ ∅ ∧ (n.id ≠ .group [] → filter.considers n = true) ∧
      (∀ m ∈ g.nodes [] [], m.id.Encloses n.id → m.id ≠ .group [] → filter.considers m = true) ∧
        s.Behind g n
  /-- An included test begins, and so does every group around it, behind setups that passed. -/
  included : g.ColonFree → ∀ n ∈ g.nodes [] [], Wanted g s.included n → s.Behind g n →
    s.eventsAt n.path ≠ []
  /-- A descendant's entries stand between two entries of the group. -/
  nested : ∀ n ∈ g.nodes [] [], ∀ m ∈ g.nodes [] [], n.id.Encloses m.id →
    s.eventsAt m.path = [] ∨ ∃ down,
      (s.events.filter fun e => e.name = n.path ∨ e.name = m.path) =
        [⟨n.path, .setupLaunched⟩, ⟨n.path, .setupPassed⟩] ++
          (s.events.filter fun e => e.name = m.path) ++
            [⟨n.path, .teardownLaunched⟩, ⟨n.path, teardownEvent down⟩]
  /-- Nothing is recorded below a group whose setup did not pass. -/
  blocked : ∀ n ∈ g.nodes [] [], ∀ m ∈ g.nodes [] [], n.id.Encloses m.id →
    .setupPassed ∉ s.eventsAt n.path → s.eventsAt m.path = []

section Run

variable {G : FixtureGraph} {config : Config} {g : Group} {x : Sys} {t : List Label} {s : State}
  {n m : Node}

/-- What is logged under the path of a node is what its operations record. -/
theorem eventsAt_eq (hg : g.DistinctPaths) (hx : run config g = some x)
    (h : Sys.Completes G x t s) (hn : n ∈ g.nodes [] []) :
    s.statistics.eventsAt n.path = (entries (proj n.id (calls t))).map EventEntry.event := by
  rw [Statistics.eventsAt, (run_statistics hx h).2, (completes_runWord hx h).entries_at hg hn]

theorem eventsAt_ne_nil_iff (hg : g.DistinctPaths) (hx : run config g = some x)
    (h : Sys.Completes G x t s) (hn : n ∈ g.nodes [] []) :
    s.statistics.eventsAt n.path ≠ [] ↔ proj n.id (calls t) ≠ [] := by
  rw [eventsAt_eq hg hx h hn]
  rcases (completes_runWord hx h).proj hn with hnil | hspan
  · simp [hnil]
  · obtain ⟨r, body, down, he⟩ := hspan.entries
    refine iff_of_true ?_ fun hnil => ?_
    · rw [he]
      simp [nodeEvents]
    · rw [hnil] at he
      simp [nodeEvents] at he

theorem setupPassed_mem_iff (hg : g.DistinctPaths) (hx : run config g = some x)
    (h : Sys.Completes G x t s) (hn : n ∈ g.nodes [] []) :
    .setupPassed ∈ s.statistics.eventsAt n.path ↔ SetupPassed n (calls t) := by
  rw [eventsAt_eq hg hx h hn, ← setupPassed_proj]
  rcases (completes_runWord hx h).proj hn with hnil | hspan
  · rw [hnil]
    exact iff_of_false List.not_mem_nil fun ⟨a, ha⟩ => absurd ha List.not_mem_nil
  · exact hspan.setupPassed_iff.symm

theorem behind_iff (hg : g.DistinctPaths) (hx : run config g = some x)
    (h : Sys.Completes G x t s) : s.statistics.Behind g n ↔ Behind g n (calls t) :=
  forall₂_congr fun _ hm => forall_congr' fun _ => setupPassed_mem_iff hg hx h hm

/-- **A node has events** just when it is let through, and the setups around it passed. -/
theorem begins_iff (hg : g.DistinctPaths) (hx : run config g = some x)
    (h : Sys.Completes G x t s) (hn : n ∈ g.nodes [] []) : s.statistics.eventsAt n.path ≠ [] ↔
      s.statistics.included ≠ ∅ ∧
        (n.id ≠ .group [] → (Filter.new config.filters g).considers n = true) ∧
        (∀ m ∈ g.nodes [] [], m.id.Encloses n.id → m.id ≠ .group [] →
          (Filter.new config.filters g).considers m = true) ∧ s.statistics.Behind g n := by
  rw [eventsAt_ne_nil_iff hg hx h hn, behind_iff hg hx h, (run_statistics hx h).1]
  have hexec := (Sys.run_split h).1
  obtain ⟨hempty, hp⟩ | ⟨hne, hp⟩ := (run_spec hx).2.2.2 <;> rw [hp] at hexec
  · rw [(exec_pure hexec).1]
    exact iff_of_false (not_not_intro rfl) fun h => h.1 hempty
  · rw [runGroup_runs_iff [] [] _ g hexec n hn, and_iff_right hne]
    refine and_congr_right fun _ => ?_
    constructor
    · intro h
      exact ⟨fun m hm he => (h m hm he).1, fun m hm he => (h m hm he).2⟩
    · rintro ⟨hc, hp⟩ m hm he
      exact ⟨hc m hm he, hp m hm he⟩

/-- What stands below a group is recorded between two entries of the group. -/
theorem nested_entries (hg : g.DistinctPaths) (hx : run config g = some x)
    (h : Sys.Completes G x t s) (hn : n ∈ g.nodes [] []) (hm : m ∈ g.nodes [] [])
    (henc : n.id.Encloses m.id) : s.statistics.eventsAt m.path = [] ∨ ∃ down,
      (s.statistics.events.filter fun e => e.name = n.path ∨ e.name = m.path) =
        [⟨n.path, .setupLaunched⟩, ⟨n.path, .setupPassed⟩] ++
          (s.statistics.events.filter fun e => e.name = m.path) ++
            [⟨n.path, .teardownLaunched⟩, ⟨n.path, teardownEvent down⟩] := by
  have hw := completes_runWord hx h
  have hlog : s.statistics.events = entries (calls t) := (run_statistics hx h).2
  have hne : n.id ≠ m.id := fun he => NodeId.not_encloses_symm henc (he ▸ henc)
  cases hw.related hn hm hne with
  | outer _ hnest =>
    rcases hnest with hnil | ⟨a, down, hspan⟩
    · refine Or.inl ?_
      rw [eventsAt_eq hg hx h hm, hnil]
      rfl
    · refine Or.inr ⟨down, ?_⟩
      rw [hlog, hw.entries_at₂ hg hn hm, hw.entries_at hg hm, hspan]
      simp only [spanWord, entries_append, entries_openWord, entries_closeWord, setupEvent,
        List.append_assoc]
  | inner h _ => exact absurd h (NodeId.not_encloses_symm henc)
  | apart h _ _ => exact absurd henc h
  | parallel h _ => exact absurd henc (NodeId.not_encloses_test _ h.left _)

/-- **The event log of a completed run.** -/
theorem event_protocol (hg : g.DistinctPaths) (hx : run config g = some x)
    (h : Sys.Completes G x t s) :
    EventProtocol g (.new config.filters g) s.statistics := by
  have hw := completes_runWord hx h
  refine ⟨fun n hn => ?_, fun n hn => begins_iff hg hx h hn, fun hcf n hn hwant hb => ?_,
    fun n hn m hm henc => nested_entries hg hx h hn hm henc, fun n hn m hm henc hno => ?_⟩
  · rw [eventsAt_eq hg hx h hn, ← eventsOf_eq]
    rcases hw.proj hn with hnil | hspan
    · rw [eventsOf_eq, hnil]
      exact Or.inl rfl
    · exact Or.inr hspan.eventsOf
  · rw [(run_statistics hx h).1] at hwant
    rw [behind_iff hg hx h] at hb
    rw [eventsAt_ne_nil_iff hg hx h hn]
    exact proj_ne_nil_of_wanted hcf hx h hn hwant hb
  · by_contra hne
    exact hno (((begins_iff hg hx h hm).mp hne).2.2.2 n hn henc)

end Run

/-- A run in which one of the tests fails and a teardown panics. -/
theorem event_protocol_twoTests : ∃ x t s, run {} twoTests = some x ∧
    Sys.Completes noDependencies x t s ∧
      EventProtocol twoTests (.new [] twoTests) s.statistics := by
  obtain ⟨x, hx, h⟩ := exists_completes_of_runsToEnd noDependencies {
      body := fun n => if n = .test [0] 0 then .error () else .ok ()
      teardown := fun a => if a = 2 then .error () else .ok () }
    {} twoTests 200 (by decide +kernel)
  exact ⟨x, _, _, hx, h, event_protocol (by decide) hx h⟩

end E2etest
