import E2etest.Accounting
import E2etest.Charges
import E2etest.Drive

/-!
# The verdict

A task that panics or times out hands an error to the node that waits for it, and the node records a
failure. `verdict`: at the end of a run `failed_names` names just the nodes with such a task, and the
run is a success when some test is included and there is none.
-/

namespace E2etest

open Async Text Prog

/-- The operation receives an error from a task. -/
def OpCall.fails : OpCall → Bool
  | ⟨.join _ (.setup _), .error ()⟩ | ⟨.join _ (.test _), .error ()⟩
  | ⟨.join _ .teardown, .error ()⟩ => true
  | _ => false

/-- A setup, the body or the teardown of the node failed. -/
def Failed (n : NodeId) (w : List OpCall) : Prop := ∃ c ∈ w, c.1.node = n ∧ c.fails = true

/-! ## What a node records -/

theorem fails_setupWord (n : NodeId) (name : Str) (kind : Task) (f : TypeId) (timeout : Duration)
    (r : Except Unit (Option Arc)) : (setupWord n name kind f timeout r).any OpCall.fails =
      (entries (setupWord n name kind f timeout r)).any EventEntry.isFailed := by
  rw [entries_setupWord]
  rcases r with e | _ | a <;> rfl

theorem fails_testWord (n : NodeId) (name : Str) (a : Arc) (timeout : Duration)
    (r : Except Unit Unit) : (testWord n name a timeout r).any OpCall.fails =
      (entries (testWord n name a timeout r)).any EventEntry.isFailed := by
  rw [entries_testWord]
  cases r <;> rfl

theorem fails_teardownWord (n : NodeId) (name : Str) (timeout : Duration) (r : Except Unit Unit) :
    (teardownWord n name timeout r).any OpCall.fails =
      (entries (teardownWord n name timeout r)).any EventEntry.isFailed := by
  rw [entries_teardownWord]
  cases r <;> rfl

theorem fails_closeWord (n : NodeId) (name : Str) (f : Fixture) (dt : Duration)
    (r : Except Unit (Option Arc)) (down : Except Unit Unit) :
    (closeWord n name f dt r down).any OpCall.fails =
      (entries (closeWord n name f dt r down)).any EventEntry.isFailed := by
  unfold closeWord
  rw [List.any_append, entries_append, List.any_append, fails_teardownWord]
  rcases r with e | _ | a <;> rfl

/-- **A node records a failure** just when one of its tasks fails. -/
theorem IsSpan.fails {m : Node} {dt : Duration} {w : List OpCall} (h : IsSpan m dt w) :
    w.any OpCall.fails = (E2etest.entries w).any EventEntry.isFailed := by
  obtain ⟨r, mid, down, rfl, hmid⟩ := h
  have hin : mid.any OpCall.fails = (E2etest.entries mid).any EventEntry.isFailed := by
    obtain ⟨a, -, hmid⟩ | ⟨-, rfl⟩ := hmid
    · split at hmid
      · obtain ⟨timeout, body, rfl⟩ := hmid
        exact fails_testWord _ _ _ _ _
      · rw [hmid]
        rfl
    · rfl
  unfold spanWord openWord
  simp only [List.any_append, entries_append, hin, fails_closeWord]
  congr 1
  exact fails_setupWord _ _ _ _ _ _

theorem IsSpan.entry_name {m : Node} {dt : Duration} {w : List OpCall} (h : IsSpan m dt w) :
    ∀ e ∈ E2etest.entries w, e.name = m.path := by
  obtain ⟨r, body, down, he⟩ := h.entries
  rw [he]
  intro e hmem
  obtain ⟨event, -, rfl⟩ := List.mem_map.mp hmem
  rfl

section Word

variable {config : Config} {g : Group} {w : List OpCall} {n : Node}

/-- What a node of the tree records, and whether it fails. -/
theorem RunWord.failed_iff (hw : RunWord config g w) (hn : n ∈ g.nodes [] []) :
    Failed n.id w ↔ ∃ e ∈ entries (E2etest.proj n.id w), e.isFailed = true := by
  have hany : (E2etest.proj n.id w).any OpCall.fails =
      (entries (E2etest.proj n.id w)).any EventEntry.isFailed := by
    rcases hw.proj hn with hnil | hspan
    · rw [hnil]
      rfl
    · exact hspan.fails
  rw [← List.any_eq_true, ← hany, List.any_eq_true]
  refine exists_congr fun c => ?_
  rw [E2etest.proj, List.mem_filter, decide_eq_true_eq, and_assoc]

/-- The failures in the log are those of the nodes. -/
theorem RunWord.mem_failed (hw : RunWord config g w) {p : Str} :
    (∃ e ∈ entries w, e.isFailed = true ∧ e.name = p) ↔
      ∃ n ∈ g.nodes [] [], n.path = p ∧ Failed n.id w := by
  constructor
  · rintro ⟨e, he, hf, rfl⟩
    obtain ⟨c, hc, hce⟩ := List.mem_filterMap.mp he
    obtain ⟨n, hn, hid⟩ := hw.nodes c hc
    have hmem : e ∈ entries (E2etest.proj n.id w) :=
      List.mem_filterMap.mpr ⟨c, List.mem_filter.mpr ⟨hc, decide_eq_true hid.symm⟩, hce⟩
    refine ⟨n, hn, ?_, (hw.failed_iff hn).mpr ⟨e, hmem, hf⟩⟩
    rcases hw.proj hn with hnil | hspan
    · rw [hnil] at hmem
      cases hmem
    · exact (hspan.entry_name e hmem).symm
  · rintro ⟨n, hn, rfl, hf⟩
    obtain ⟨e, he, hef⟩ := (hw.failed_iff hn).mp hf
    have hname : e.name = n.path := by
      rcases hw.proj hn with hnil | hspan
      · rw [hnil] at he
        cases he
      · exact hspan.entry_name e he
    have hsub : entries (E2etest.proj n.id w) ⊆ entries w :=
      ((List.filter_sublist).filterMap _).subset
    exact ⟨e, hsub he, hef, hname⟩

end Word

theorem Statistics.mem_failedNames {s : Statistics} {p : Str} :
    p ∈ s.failedNames ↔ ∃ e ∈ s.events, e.isFailed = true ∧ e.name = p := by
  unfold failedNames
  rw [mem_sortDedup, List.mem_map]
  simp only [List.mem_filter, and_assoc]

theorem Statistics.isSuccess_iff {s : Statistics} :
    s.isSuccess = true ↔ s.included ≠ ∅ ∧ s.failedNames = [] := by
  rw [isSuccess, Bool.and_eq_true, decide_eq_true_eq, Bool.not_eq_true', List.any_eq_false,
    List.eq_nil_iff_forall_not_mem]
  refine and_congr_right fun _ => ⟨fun h p hp => ?_, fun h e he hf => ?_⟩
  · obtain ⟨e, he, hf, -⟩ := mem_failedNames.mp hp
    exact h e he hf
  · exact h e.name (mem_failedNames.mpr ⟨e, he, hf, rfl⟩)

/-- **The verdict**: `failed_names` names the nodes of which a setup, the body or the teardown failed,
and the run is a success when there are none and some test is included. -/
theorem verdict {G : FixtureGraph} {config : Config} {g : Group} {x : Sys} {t : List Label}
    {s : State} (hx : run config g = some x) (h : Sys.Completes G x t s) :
    (∀ p, p ∈ s.statistics.failedNames ↔
      ∃ n ∈ g.nodes [] [], n.path = p ∧ Failed n.id (calls t)) ∧
    (s.statistics.isSuccess = true ↔ x.state.statistics.included ≠ ∅ ∧
      ∀ n ∈ g.nodes [] [], ¬ Failed n.id (calls t)) := by
  obtain ⟨hincluded, hlog⟩ := run_statistics hx h
  have hw := completes_runWord hx h
  have hnames : ∀ p, p ∈ s.statistics.failedNames ↔
      ∃ n ∈ g.nodes [] [], n.path = p ∧ Failed n.id (calls t) := fun p => by
    rw [Statistics.mem_failedNames, hlog, hw.mem_failed]
  refine ⟨hnames, ?_⟩
  rw [Statistics.isSuccess_iff, hincluded, List.eq_nil_iff_forall_not_mem]
  refine and_congr_right fun _ => ⟨fun hno n hn hf => ?_, fun hno p hp => ?_⟩
  · exact hno n.path ((hnames n.path).mpr ⟨n, hn, rfl, hf⟩)
  · obtain ⟨n, hn, -, hf⟩ := (hnames p).mp hp
    exact hno n hn hf

/-- The body of one test fails, and the subgroup is skipped. -/
theorem verdict_threeTests : ∃ x t s, run {} threeTests = some x ∧
    Sys.Completes noDependencies x t s ∧ s.statistics.isSuccess = false ∧
      ['r', ':', ':', 'x'] ∈ s.statistics.failedNames := by
  obtain ⟨x, t, s, hx, h, hP⟩ := exists_completes_of_endsWith noDependencies {
      script := fun n => if n = .group [0] then .skip else .done []
      body := fun n => if n = .test [] 0 then .error () else .ok () } {} threeTests 200
    (fun t _ => (calls t).any fun c => decide (c.1.node = .test [] 0) && c.fails) (by decide +kernel)
  obtain ⟨c, hc, hcf⟩ := List.any_eq_true.mp hP
  obtain ⟨hnode, hfails⟩ := Bool.and_eq_true_iff.mp hcf
  have hfailed : Failed (.test [] 0) (calls t) := ⟨c, hc, of_decide_eq_true hnode, hfails⟩
  have hmem : (⟨.test [] 0, [['r']], ['x'], { typeId := 1 }⟩ : Node) ∈ threeTests.nodes [] [] := by
    decide
  obtain ⟨hnames, hsuccess⟩ := verdict hx h
  refine ⟨x, t, s, hx, h, ?_, (hnames _).mpr ⟨_, hmem, rfl, hfailed⟩⟩
  rw [← Bool.not_eq_true, hsuccess]
  exact fun hok => hok.2 _ hmem hfailed

end E2etest
