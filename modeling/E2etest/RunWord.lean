import E2etest.Included
import E2etest.Nesting
import E2etest.Steps

/-!
# The words of a run

The operations of the runner in any run are a prefix of the word of a complete one
(`run_prefix`, `completes_runWord`), so that what `Spans.lean` and `Nesting.lean` say of complete
words says something of every point of every run.

`replay_statistics` is what a run leaves in the statistics: its records, in order.
-/

namespace E2etest

open Async Text Prog

/-- A word of the operations of a complete run. -/
def RunWord (config : Config) (g : Group) (w : List OpCall) : Prop :=
  w = [] ∨ Completes (runGroup [] [] (config.context g) g) w ()

section Word

variable {config : Config} {g : Group} {w : List OpCall}

theorem RunWord.nodes (h : RunWord config g w) : ∀ c ∈ w, ∃ m ∈ g.nodes [] [], m.id = c.1.node := by
  obtain rfl | h := h
  · simp
  · exact runGroup_nodes [] [] _ g h

theorem RunWord.proj (h : RunWord config g w) {m : Node} (hm : m ∈ g.nodes [] []) :
    proj m.id w = [] ∨ IsSpan m config.defaultTimeout (proj m.id w) := by
  obtain rfl | h := h
  · exact Or.inl rfl
  · exact proj_runGroup [] [] _ g h m hm

/-- A node does nothing in a run, or what a span of it is. -/
theorem RunWord.proj_cases (h : RunWord config g w) (n : NodeId) : E2etest.proj n w = [] ∨
    ∃ m ∈ g.nodes [] [], m.id = n ∧ IsSpan m config.defaultTimeout (E2etest.proj n w) := by
  by_cases hn : ∃ m ∈ g.nodes [] [], m.id = n
  · obtain ⟨m, hm, rfl⟩ := hn
    exact (h.proj hm).imp_right fun hspan => ⟨m, hm, rfl, hspan⟩
  · refine Or.inl (proj_eq_nil fun c hc he => hn ?_)
    obtain ⟨m, hm, hid⟩ := h.nodes c hc
    exact ⟨m, hm, hid.trans he⟩

/-- **What accepts every span** accepts what a node does up to some point of a run. -/
theorem RunWord.foldlM_isSome {A : Type} {next : A → OpCall → Option A} {q : A} {s : List OpCall}
    (h : RunWord config g w)
    (hspan : ∀ m v, IsSpan m config.defaultTimeout v → (v.foldlM next q).isSome)
    (hs : s <+: w) (n : NodeId) : ((E2etest.proj n s).foldlM next q).isSome := by
  have hall : ((E2etest.proj n w).foldlM next q).isSome := by
    rcases h.proj_cases n with hnil | ⟨m, -, -, hm⟩
    · rw [hnil]
      rfl
    · exact hspan m _ hm
  obtain ⟨u, hu⟩ : E2etest.proj n s <+: E2etest.proj n w := hs.filter _
  rw [← hu, List.foldlM_append] at hall
  cases hd : (E2etest.proj n s).foldlM next q with
  | none => simp [hd] at hall
  | some q' => rfl

theorem RunWord.related (h : RunWord config g w) {n m : Node} (hn : n ∈ g.nodes [] [])
    (hm : m ∈ g.nodes [] []) (hne : n.id ≠ m.id) :
    Related (g.nodes [] []) (config.context g) n m w := by
  obtain rfl | h := h
  · exact related_of_nil (by simp) (by simp)
  · exact related_runGroup [] [] _ g h n hn m hm hne

end Word

section Run

variable {G : FixtureGraph} {config : Config} {g : Group} {x y : Sys} {t : List Label}

/-- **What the runner has done at any point of a run** is the beginning of a complete word. -/
theorem run_prefix (hx : run config g = some x) (h : Sys.Run G x t y) :
    ∃ w, RunWord config g w ∧ calls t <+: w := by
  obtain ⟨he, -⟩ := Sys.run_split h
  obtain ⟨-, hp⟩ | ⟨-, hp⟩ := (run_spec hx).2.2.2 <;> rw [hp] at he
  · exact ⟨[], Or.inl rfl, by rw [(exec_pure he).1]⟩
  · obtain ⟨s, ⟨⟩, hs⟩ := he.extends Op.nonempty_result
    exact ⟨_, Or.inr hs, List.prefix_append _ _⟩

/-- What the runner has done when it returns is a complete word. -/
theorem completes_runWord {s : State} (hx : run config g = some x) (h : Sys.Completes G x t s) :
    RunWord config g (calls t) := by
  obtain ⟨he, -⟩ := Sys.run_split h
  obtain ⟨-, hp⟩ | ⟨-, hp⟩ := (run_spec hx).2.2.2 <;> rw [hp] at he
  · exact Or.inl (exec_pure he).1
  · exact Or.inr he

end Run

/-! ## The records of a run -/

/-- The entry an operation adds to the log. -/
def entryOf : OpCall → Option EventEntry
  | ⟨.record _ name event, _⟩ => some ⟨name, event⟩
  | _ => none

/-- The entries a word adds to the log. -/
def entries (w : List OpCall) : List EventEntry := w.filterMap entryOf

@[simp] theorem entries_nil : entries [] = [] := rfl

@[simp] theorem entries_append (v w : List OpCall) : entries (v ++ w) = entries v ++ entries w :=
  List.filterMap_append

theorem entries_setupWord (n : NodeId) (name : Str) (kind : Task) (f : TypeId) (timeout : Duration)
    (r : Except Unit (Option Arc)) : entries (setupWord n name kind f timeout r) =
      [⟨name, .setupLaunched⟩, ⟨name, setupEvent kind r⟩] := by
  rcases r with e | a <;> rfl

theorem entries_testWord (n : NodeId) (name : Str) (a : Arc) (timeout : Duration)
    (r : Except Unit Unit) : entries (testWord n name a timeout r) =
      [⟨name, .testLaunched⟩, ⟨name, testEvent r⟩] := by
  rcases r with e | u <;> rfl

theorem entries_teardownWord (n : NodeId) (name : Str) (timeout : Duration) (r : Except Unit Unit) :
    entries (teardownWord n name timeout r) =
      [⟨name, .teardownLaunched⟩, ⟨name, teardownEvent r⟩] := by
  rcases r with e | u <;> rfl

theorem entries_openWord (n : NodeId) (name : Str) (kind : Task) (f : Fixture) (dt : Duration)
    (r : Except Unit (Option Arc)) : entries (openWord n name kind f dt r) =
      [⟨name, .setupLaunched⟩, ⟨name, setupEvent kind r⟩] :=
  entries_setupWord n name kind _ _ r

theorem entries_closeWord (n : NodeId) (name : Str) (f : Fixture) (dt : Duration)
    (r : Except Unit (Option Arc)) (down : Except Unit Unit) :
    entries (closeWord n name f dt r down) =
      [⟨name, .teardownLaunched⟩, ⟨name, teardownEvent down⟩] := by
  rcases r with e | _ | a <;> exact entries_teardownWord n name _ down

/-- The events of a node, given the answers of its setup, its body and its teardown. -/
def nodeEvents (kind : Task) (r : Except Unit (Option Arc)) (body down : Except Unit Unit) :
    List Event :=
  [.setupLaunched, setupEvent kind r] ++
    ((match kind, r with
      | .test, .ok (some _) => [.testLaunched, testEvent body]
      | _, _ => []) ++ [.teardownLaunched, teardownEvent down])

/-- **The entries of a node** in the log. -/
theorem IsSpan.entries {m : Node} {dt : Duration} {w : List OpCall} (h : IsSpan m dt w) :
    ∃ r body down, entries w = (nodeEvents m.kind r body down).map (EventEntry.mk m.path) := by
  obtain ⟨r, mid, down, rfl, hmid⟩ := h
  simp only [spanWord, entries_append, entries_openWord, entries_closeWord]
  obtain ⟨a, rfl, hmid⟩ | ⟨hne, rfl⟩ := hmid
  · split at hmid
    · rename_i ht
      obtain ⟨timeout, body, rfl⟩ := hmid
      refine ⟨.ok (some a), body, down, ?_⟩
      simp [entries_testWord, nodeEvents, Node.kind, ht]
    · rename_i ht
      subst hmid
      refine ⟨.ok (some a), .ok (), down, ?_⟩
      simp [E2etest.entries, nodeEvents, Node.kind, ht]
  · refine ⟨r, .ok (), down, ?_⟩
    rcases r with e | _ | a
    · cases m.kind <;> rfl
    · cases m.kind <;> rfl
    · exact absurd rfl (hne a)

/-- The event a node records in an operation. -/
def eventOf (n : NodeId) : OpCall → Option Event
  | ⟨.record m _ event, _⟩ => if m = n then some event else none
  | _ => none

/-- The events of one node, in order. -/
def eventsOf (n : NodeId) (w : List OpCall) : List Event := w.filterMap (eventOf n)

theorem eventsOf_eq (n : NodeId) (w : List OpCall) :
    eventsOf n w = (E2etest.entries (proj n w)).map EventEntry.event := by
  unfold eventsOf
  rw [E2etest.entries, proj, List.filterMap_filter, List.map_filterMap]
  refine List.filterMap_congr fun c _ => ?_
  rcases c with ⟨op, r⟩
  cases op with
  | record m name event => by_cases h : m = n <;> simp [eventOf, entryOf, Op.node, h]
  | _ => simp [eventOf, entryOf]

/-- **The events of a node** that does something in a complete run. -/
theorem IsSpan.eventsOf {m : Node} {dt : Duration} {w : List OpCall}
    (h : IsSpan m dt (E2etest.proj m.id w)) :
    ∃ r body down, eventsOf m.id w = nodeEvents m.kind r body down := by
  obtain ⟨r, body, down, he⟩ := h.entries
  refine ⟨r, body, down, ?_⟩
  rw [eventsOf_eq, he, List.map_map, Function.comp_def, List.map_id']

theorem mem_entries {n : NodeId} {name : Str} {event : Event} {w : List OpCall}
    (h : recorded n name event ∈ w) : ⟨name, event⟩ ∈ entries w :=
  List.mem_filterMap.mpr ⟨_, h, rfl⟩

/-- The operation defines or includes a test, which only the loop before the run does. -/
def isSelection : OpCall → Bool
  | ⟨.record _ _ .testDefined, _⟩ | ⟨.record _ _ .testIncluded, _⟩ => true
  | _ => false

theorem nodeEvents_not_selection {kind : Task} {r : Except Unit (Option Arc)}
    {body down : Except Unit Unit} :
    .testDefined ∉ nodeEvents kind r body down ∧ .testIncluded ∉ nodeEvents kind r body down := by
  rcases r with e | _ | a <;> rcases body with e' | u <;> rcases down with e'' | u' <;>
    cases kind <;> simp [nodeEvents, setupEvent, testEvent, teardownEvent]

theorem IsSpan.not_isSelection {m : Node} {dt : Duration} {w : List OpCall} (h : IsSpan m dt w) :
    ∀ c ∈ w, isSelection c = false := by
  obtain ⟨r, body, down, he⟩ := h.entries
  have hevent : ∀ {n name event}, recorded n name event ∈ w →
      event ∈ nodeEvents m.kind r body down := by
    intro n name event hc
    have hmem := mem_entries hc
    rw [he, List.mem_map] at hmem
    obtain ⟨event', hmem, heq⟩ := hmem
    rwa [← (EventEntry.mk.inj heq).2]
  intro c hc
  rcases hsel : isSelection c with _ | _
  · rfl
  · unfold isSelection at hsel
    split at hsel
    · exact absurd (hevent hc) nodeEvents_not_selection.1
    · exact absurd (hevent hc) nodeEvents_not_selection.2
    · cases hsel

theorem RunWord.not_isSelection {config : Config} {g : Group} {w : List OpCall}
    (h : RunWord config g w) : ∀ c ∈ w, isSelection c = false := by
  intro c hc
  obtain ⟨m, hm, hid⟩ := h.nodes c hc
  have hproj : c ∈ E2etest.proj m.id w := List.mem_filter.mpr ⟨hc, decide_eq_true hid.symm⟩
  rcases h.proj hm with hnil | hspan
  · rw [hnil] at hproj
    exact absurd hproj List.not_mem_nil
  · exact hspan.not_isSelection c hproj

theorem record_cases {s s' : Statistics} {name : Str} {event : Event}
    (hd : event ≠ .testDefined) (hi : event ≠ .testIncluded)
    (h : s.record name event = some s') : s' = { s with events := s.events ++ [⟨name, event⟩] } := by
  cases event <;> first | exact absurd rfl hd | exact absurd rfl hi | skip
  all_goals
    obtain ⟨-, he⟩ := Option.ite_none_right_eq_some.mp h
    obtain rfl := Option.some.inj he
    rfl

theorem call_statistics {s s' : State} {c : OpCall} (h : s.call c = some s')
    (hc : isSelection c = false) : s'.statistics =
      { s.statistics with events := s.statistics.events ++ (entryOf c).toList } := by
  cases State.call_cases h with
  | @record n name event statistics hr =>
    refine record_cases ?_ ?_ hr <;>
    · rintro rfl
      cases hc
  | _ => simp [entryOf]

/-- **What a run leaves in the statistics**: the tests included at the outset, and its records. -/
theorem replay_statistics {G : FixtureGraph} :
    ∀ {t : List Label} {s s' : State}, s.replay G t = some s' → (∀ c ∈ calls t, isSelection c = false) →
      s'.statistics = { s.statistics with events := s.statistics.events ++ entries (calls t) }
  | [], s, s', h, _ => by
    obtain rfl := Option.some.inj h
    simp
  | l :: t, s, s', h, hsel => by
    rw [State.replay_cons] at h
    obtain ⟨u, hu, h'⟩ := Option.bind_eq_some_iff.mp h
    cases l with
    | call c =>
      have hcalls : calls (.call c :: t) = c :: calls t := rfl
      rw [hcalls] at hsel ⊢
      rw [replay_statistics h' fun c hc => hsel c (List.mem_cons_of_mem _ hc),
        call_statistics hu (hsel c List.mem_cons_self), List.append_assoc]
      unfold entries
      cases he : entryOf c <;> simp [he]
    | act a =>
      rw [replay_statistics h' hsel, State.act_statistics hu]
      rfl

theorem statistics_of_run {G : FixtureGraph} {config : Config} {g : Group} {x y : Sys}
    {t : List Label} (hx : run config g = some x) (h : Sys.Run G x t y) :
    y.state.statistics = { x.state.statistics with events := entries (calls t) } := by
  obtain ⟨w, hw, hpre⟩ := run_prefix hx h
  rw [replay_statistics (Sys.run_split h).2 fun c hc => hw.not_isSelection c (hpre.subset hc),
    (run_spec hx).1, List.nil_append]

theorem run_statistics {G : FixtureGraph} {config : Config} {g : Group} {x y : Sys}
    {t : List Label} (hx : run config g = some x) (h : Sys.Run G x t y) :
    y.state.statistics.included = x.state.statistics.included ∧
      y.state.statistics.events = entries (calls t) := by
  rw [statistics_of_run hx h]
  exact ⟨rfl, rfl⟩

end E2etest
