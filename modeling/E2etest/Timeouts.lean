import E2etest.Async.Timed
import E2etest.Macros
import E2etest.Once

/-!
# The timeouts of listed fixtures

A node written with a macro lists fixtures, each with timeouts of its own, and runs under a generated
fixture that sets them up one after the other. `Timing` says how long everything takes, and
`Timing.setup`, `Timing.teardown` are the futures `single` puts its limit on.

The generated fixture has no timeouts, so the limit is always the default one (`listed_timeouts`). It
is for all fixtures together: `timeouts_honoured_iff` says that a fixture which overruns its own
timeout is always noticed, where futures yield, if and only if no fixture listed has a timeout below
the default one.
-/

namespace E2etest

open Async Text Prog

/-! ## What the tasks of a node do, and for how long -/

/-- How the setup of a node meets a fixture it lists. -/
inductive Met
  /-- It is there already. -/
  | found
  /-- It is set up, with all it depends on. -/
  | run (took : Duration) (answer : Except Unit (Option Unit))
  deriving DecidableEq, Repr

/-- `Setup::setup` on a fixture that is listed. -/
def Met.setup : Met → Timed (Option Unit)
  | .found => return some ()
  | .run took answer => ⟨took, answer⟩

/-- `Fixture::setup` of the generated fixture: `Some(Self(#(setup.setup::<#fixtures>().await?),*))`. -/
def setupListed : List Met → Timed (Option Unit)
  | [] => return some ()
  | m :: ms => do
    match ← m.setup with
    | some () => setupListed ms
    | none => return none

/-- A fixture that is torn down: how long it takes, and whether it panics. -/
structure Torn where
  fixture : Fixture
  took : Duration
  result : Except Unit Unit
  deriving DecidableEq, Repr

/-- The loops of `Inner::teardown`, over the fixtures nobody holds any more. -/
def teardownEach : List Torn → Timed Unit
  | [] => return ()
  | t :: ts => do
    (⟨t.took, t.result⟩ : Timed Unit)
    teardownEach ts

/-- What happens to a node, and how long it takes. -/
structure Timing where
  /-- How long its setup waits for the lock of `Fixtures`. -/
  setupWait : Duration
  /-- The fixtures listed, in order. -/
  met : List (Fixture × Met)
  /-- How long its teardown waits for the lock. -/
  teardownWait : Duration
  /-- What its sweep tears down, in order. -/
  torn : List Torn

/-- `Fixtures::setup`. -/
def Timing.setup (τ : Timing) : Timed (Option Unit) := do
  Timed.sleep τ.setupWait
  setupListed (τ.met.map Prod.snd)

/-- `Fixtures::teardown`. -/
def Timing.teardown (τ : Timing) : Timed Unit := do
  Timed.sleep τ.teardownWait
  teardownEach τ.torn

/-- The fixture is there after its turn. -/
def Met.made : Met → Bool
  | .found => true
  | .run _ answer => answer = .ok (some ())

/-- The setup of the node runs the setup of a fixture it lists. -/
def Timing.SetsUp (τ : Timing) (F : Fixture) (took : Duration) : Prop :=
  ∃ before answer after, τ.met = before ++ (F, .run took answer) :: after ∧
    ∀ p ∈ before, p.2.made = true

/-- The teardown of the node runs the teardown of a fixture. -/
def Timing.TearsDown (τ : Timing) (F : Fixture) (took : Duration) : Prop :=
  ∃ before r after, τ.torn = before ++ ⟨F, took, r⟩ :: after ∧ ∀ t ∈ before, t.result = .ok ()

theorem Met.setup_of_made {m : Met} (h : m.made = true) : m.setup.result = .ok (some ()) := by
  cases m with
  | found => rfl
  | run took answer => exact of_decide_eq_true h

/-- How long a fixture takes in its turn. -/
def Met.took : Met → Duration
  | .found => 0
  | .run took _ => took

theorem Met.elapsed_setup (m : Met) : m.setup.elapsed = m.took := by
  cases m <;> rfl

/-- **All that is listed is set up one after the other.** -/
theorem setupListed_of_made {ms : List Met} (h : ∀ m ∈ ms, m.made = true) :
    setupListed ms = ⟨Timed.total (ms.map Met.took), .ok (some ())⟩ := by
  induction ms with
  | nil => rfl
  | cons m ms ih =>
    rw [List.forall_mem_cons] at h
    rw [setupListed, Timed.bind_ok (Met.setup_of_made h.1), ih h.2, m.elapsed_setup, List.map_cons,
      Timed.total_cons]

/-- The setup of a fixture is part of the setup of the node. -/
theorem elapsed_le_setupListed {before after : List Met} {took : Duration}
    {answer : Except Unit (Option Unit)} (h : ∀ m ∈ before, m.made = true) :
    took ≤ (setupListed (before ++ .run took answer :: after)).elapsed := by
  induction before with
  | nil => exact Timed.elapsed_le_bind (Met.run took answer).setup _
  | cons m before ih =>
    rw [List.forall_mem_cons] at h
    refine (ih h.2).trans ?_
    rw [List.cons_append, setupListed]
    exact Timed.elapsed_le_bind_of_ok (f := fun o : Option Unit =>
      match o with
      | some () => setupListed (before ++ .run took answer :: after)
      | none => return none) (Met.setup_of_made h.1)

/-- All that nobody holds is torn down one after the other. -/
theorem teardownEach_of_ok {ts : List Torn} (h : ∀ t ∈ ts, t.result = .ok ()) :
    teardownEach ts = ⟨Timed.total (ts.map Torn.took), .ok ()⟩ := by
  induction ts with
  | nil => rfl
  | cons t ts ih =>
    rw [List.forall_mem_cons] at h
    rw [teardownEach, Timed.bind_ok (p := ⟨t.took, t.result⟩) h.1, ih h.2, List.map_cons,
      Timed.total_cons]

theorem elapsed_le_teardownEach {before after : List Torn} {t : Torn}
    (h : ∀ u ∈ before, u.result = .ok ()) :
    t.took ≤ (teardownEach (before ++ t :: after)).elapsed := by
  induction before with
  | nil => exact Timed.elapsed_le_bind (⟨t.took, t.result⟩ : Timed Unit) _
  | cons u before ih =>
    rw [List.forall_mem_cons] at h
    refine (ih h.2).trans ?_
    rw [List.cons_append, teardownEach]
    exact Timed.elapsed_le_bind_of_ok (p := (⟨u.took, u.result⟩ : Timed Unit))
      (f := fun _ => teardownEach (before ++ t :: after)) h.1

namespace Timing

variable {τ : Timing} {F : Fixture} {took : Duration}

/-- **What a node sets up** takes no longer than its setup. -/
theorem SetsUp.le_elapsed (h : τ.SetsUp F took) : took ≤ τ.setup.elapsed := by
  obtain ⟨before, answer, after, hmet, hmade⟩ := h
  refine le_trans ?_ (Timed.elapsed_le_bind_of_ok (p := Timed.sleep τ.setupWait) rfl)
  rw [hmet, List.map_append]
  exact elapsed_le_setupListed (List.forall_mem_map.mpr hmade)

/-- **What a node tears down** takes no longer than its teardown. -/
theorem TearsDown.le_elapsed (h : τ.TearsDown F took) : took ≤ τ.teardown.elapsed := by
  obtain ⟨before, r, after, htorn, hok⟩ := h
  refine le_trans ?_ (Timed.elapsed_le_bind_of_ok (p := Timed.sleep τ.teardownWait) rfl)
  rw [htorn]
  exact elapsed_le_teardownEach (t := ⟨F, took, r⟩) hok

end Timing

/-! ## What a node records -/

/-- The operation belongs to the setup or the teardown of the node, and a limit or a failure is in
it. -/
def isEdge (n : NodeId) : OpCall → Bool
  | ⟨.spawn m (.setup _) _, _⟩ | ⟨.spawn m .teardown _, _⟩ | ⟨.join m (.setup _), _⟩
  | ⟨.join m .teardown, _⟩ | ⟨.record m _ (.setupFailed _), _⟩
  | ⟨.record m _ .teardownFailed, _⟩ => m = n
  | _ => false

theorem node_of_isEdge {n : NodeId} {c : OpCall} (h : isEdge n c = true) : c.1.node = n := by
  unfold isEdge at h
  split at h <;> first | exact of_decide_eq_true h | cases h

section Span

variable {n : NodeId} {name : Str} {kind : Task} {f : Fixture} {dt : Duration}
  {r : Except Unit (Option Arc)} {mid : List OpCall} {down : Except Unit Unit}

theorem mem_openWord {c : OpCall} : c ∈ openWord n name kind f dt r ↔
    c = ⟨.enter n, ()⟩ ∨ c = recorded n name .setupLaunched ∨
      c = ⟨.spawn n (.setup f.typeId) (f.timeoutSetup.getD dt), ()⟩ ∨
      c = ⟨.join n (.setup f.typeId), r⟩ ∨ (r = .error () ∧ c = ⟨.report n, ()⟩) ∨
      c = recorded n name (setupEvent kind r) := by
  rcases r with e | o <;> simp [openWord, setupWord, singleWord]

theorem mem_closeWord {c : OpCall} : c ∈ closeWord n name f dt r down ↔
    (∃ a, r = .ok (some a) ∧ c = ⟨.drop n a, ()⟩) ∨ c = recorded n name .teardownLaunched ∨
      c = ⟨.spawn n .teardown (f.timeoutTeardown.getD dt), ()⟩ ∨ c = ⟨.join n .teardown, down⟩ ∨
      (down = .error () ∧ c = ⟨.report n, ()⟩) ∨ c = recorded n name (teardownEvent down) := by
  rcases r with e | _ | a <;> rcases down with e' | u <;>
    simp [closeWord, teardownWord, singleWord]

/-- What a word shows of the setup and the teardown of a node is what a span of it does. -/
def ShowsSpan (n : NodeId) (name : Str) (kind : Task) (f : Fixture) (dt : Duration)
    (r : Except Unit (Option Arc)) (down : Except Unit Unit) (w : List OpCall) : Prop :=
  ∀ c, isEdge n c = true → (c ∈ w ↔ c ∈ openWord n name kind f dt r ∨ c ∈ closeWord n name f dt r down)

theorem showsSpan_spanWord (hmid : ∀ c ∈ mid, isEdge n c = false) :
    ShowsSpan n name kind f dt r down (spanWord n name kind f dt r mid down) := by
  intro c hc
  have hno : c ∉ mid := fun hm => by
    rw [hmid c hm] at hc
    cases hc
  unfold spanWord
  rw [List.mem_append, List.mem_append, or_iff_right hno]

namespace ShowsSpan

variable {w : List OpCall}

theorem spawn_setup (h : ShowsSpan n name kind f dt r down w) {g : TypeId} {limit : Duration} :
    ⟨.spawn n (.setup g) limit, ()⟩ ∈ w ↔ g = f.typeId ∧ limit = f.timeoutSetup.getD dt := by
  have hedge : isEdge n ⟨.spawn n (.setup g) limit, ()⟩ = true := decide_eq_true (rfl : n = n)
  rw [h _ hedge, mem_openWord, mem_closeWord]
  simp [recorded]

theorem join_setup (h : ShowsSpan n name kind f dt r down w) :
    ⟨.join n (.setup f.typeId), r⟩ ∈ w := by
  have hedge : isEdge n ⟨.join n (.setup f.typeId), r⟩ = true := decide_eq_true (rfl : n = n)
  rw [h _ hedge, mem_openWord]
  simp

/-- Every join of the setup returns the same. -/
theorem eq_of_join_setup (h : ShowsSpan n name kind f dt r down w) {g : TypeId}
    {q : Except Unit (Option Arc)} (hq : ⟨.join n (.setup g), q⟩ ∈ w) : q = r := by
  have hedge : isEdge n ⟨.join n (.setup g), q⟩ = true := decide_eq_true (rfl : n = n)
  rw [h _ hedge, mem_openWord, mem_closeWord] at hq
  rcases hq with hq | hq
  · obtain hq | hq | hq | hq | ⟨-, hq⟩ | hq := hq <;> cases hq
    rfl
  · obtain ⟨_, -, hq⟩ | hq | hq | hq | ⟨-, hq⟩ | hq := hq <;> cases hq

theorem setupFailed (h : ShowsSpan n name kind f dt r down w) :
    recorded n name (.setupFailed kind) ∈ w ↔ r = .error () := by
  have hedge : isEdge n (recorded n name (.setupFailed kind)) = true :=
    decide_eq_true (rfl : n = n)
  rw [h _ hedge, mem_openWord, mem_closeWord]
  rcases r with e | _ | a <;> rcases down with e' | u <;>
    simp [recorded, setupEvent, teardownEvent]

theorem spawn_teardown (h : ShowsSpan n name kind f dt r down w) {limit : Duration} :
    ⟨.spawn n .teardown limit, ()⟩ ∈ w ↔ limit = f.timeoutTeardown.getD dt := by
  have hedge : isEdge n ⟨.spawn n .teardown limit, ()⟩ = true := decide_eq_true (rfl : n = n)
  rw [h _ hedge, mem_openWord, mem_closeWord]
  simp [recorded]

theorem join_teardown (h : ShowsSpan n name kind f dt r down w) {q : Except Unit Unit} :
    ⟨.join n .teardown, q⟩ ∈ w ↔ q = down := by
  have hedge : isEdge n ⟨.join n .teardown, q⟩ = true := decide_eq_true (rfl : n = n)
  rw [h _ hedge, mem_openWord, mem_closeWord]
  simp [recorded]

theorem teardownFailed (h : ShowsSpan n name kind f dt r down w) :
    recorded n name .teardownFailed ∈ w ↔ down = .error () := by
  have hedge : isEdge n (recorded n name .teardownFailed) = true :=
    decide_eq_true (rfl : n = n)
  rw [h _ hedge, mem_openWord, mem_closeWord]
  rcases r with e | _ | a <;> rcases down with e' | u <;>
    simp [recorded, setupEvent, teardownEvent]

end ShowsSpan

end Span

/-! ## The clock -/

/-- The tasks of the node answer as the clock says: a join returns what the future of the task comes
to within the limit it has been spawned with. `time::timeout` does so for futures that yield: one
that never does runs on until it is done. -/
structure KeepsTime (n : NodeId) (τ : Timing) (w : List OpCall) : Prop where
  setup : ∀ f limit r, ⟨.spawn n (.setup f) limit, ()⟩ ∈ w → ⟨.join n (.setup f), r⟩ ∈ w →
    τ.setup.within limit = r.map fun o => o.map fun _ => ()
  teardown : ∀ limit r, ⟨.spawn n .teardown limit, ()⟩ ∈ w → ⟨.join n .teardown, r⟩ ∈ w →
    τ.teardown.within limit = r

/-- The timeouts of the fixtures `fs`, which the node lists, are honoured: a fixture that takes longer
to set up, or to tear down, fails the setup, or the teardown, of the node. -/
structure Honoured (n : NodeId) (name : Str) (kind : Task) (fs : List Fixture) (τ : Timing)
    (w : List OpCall) : Prop where
  setup : ∀ F took limit, τ.SetsUp F took → F.timeoutSetup = some limit → limit < took →
    recorded n name (.setupFailed kind) ∈ w
  teardown : ∀ F ∈ fs, ∀ took limit, τ.TearsDown F took → F.timeoutTeardown = some limit →
    limit < took → recorded n name .teardownFailed ∈ w

/-- **A generated fixture has no timeouts**, whatever those of the fixtures listed. -/
theorem listed_timeouts (typeId : TypeId) (fs : List Fixture) :
    (FixtureDecl.listed typeId fs).fixture.timeoutSetup = none ∧
      (FixtureDecl.listed typeId fs).fixture.timeoutTeardown = none := ⟨rfl, rfl⟩

theorem map_eq_error_iff {α β : Type} {r : Except Unit α} {f : α → β} :
    r.map f = .error () ↔ r = .error () := by
  rcases r with e | a
  · exact iff_of_true rfl rfl
  · exact iff_of_false nofun nofun

section Listed

variable {n : NodeId} {name : Str} {kind : Task} {typeId : TypeId} {fs : List Fixture}
  {dt : Duration} {r : Except Unit (Option Arc)} {down : Except Unit Unit} {w : List OpCall}
  {τ : Timing}

/-- **When the setup fails**: all that is listed takes longer than the default timeout together, or
something panics. -/
theorem ShowsSpan.setupFailed_iff
    (h : ShowsSpan n name kind (FixtureDecl.listed typeId fs).fixture dt r down w)
    (hk : KeepsTime n τ w) : recorded n name (.setupFailed kind) ∈ w ↔
      dt < τ.setup.elapsed ∨ τ.setup.result = .error () := by
  have hanswer := hk.setup _ _ _ (h.spawn_setup.mpr ⟨rfl, rfl⟩) h.join_setup
  rw [(listed_timeouts typeId fs).1, Option.getD_none] at hanswer
  rw [h.setupFailed, ← map_eq_error_iff, ← hanswer, Timed.within_eq_error_iff]

/-- **When the teardown fails.** -/
theorem ShowsSpan.teardownFailed_iff
    (h : ShowsSpan n name kind (FixtureDecl.listed typeId fs).fixture dt r down w)
    (hk : KeepsTime n τ w) : recorded n name .teardownFailed ∈ w ↔
      dt < τ.teardown.elapsed ∨ τ.teardown.result = .error () := by
  have hanswer := hk.teardown _ _ (h.spawn_teardown.mpr rfl) (h.join_teardown.mpr rfl)
  rw [(listed_timeouts typeId fs).2, Option.getD_none] at hanswer
  rw [h.teardownFailed, ← hanswer, Timed.within_eq_error_iff]

/-- No fixture has a timeout below the default one. -/
def NoneTighter (fs : List Fixture) (dt : Duration) : Prop :=
  ∀ F ∈ fs, (∀ limit, F.timeoutSetup = some limit → dt ≤ limit) ∧
    ∀ limit, F.timeoutTeardown = some limit → dt ≤ limit

/-- A fixture that overruns a timeout which is not below the default one overruns that, too. -/
theorem ShowsSpan.honoured
    (h : ShowsSpan n name kind (FixtureDecl.listed typeId fs).fixture dt r down w)
    (hk : KeepsTime n τ w) (hmet : τ.met.map Prod.fst = fs) (htight : NoneTighter fs dt) :
    Honoured n name kind fs τ w := by
  constructor
  · intro F took limit hF hlimit hover
    have hmem : F ∈ fs := by
      obtain ⟨before, answer, after, hsplit, -⟩ := hF
      rw [← hmet, hsplit, List.map_append, List.map_cons]
      exact List.mem_append_right _ List.mem_cons_self
    have hdt := (htight F hmem).1 limit hlimit
    have htook := hF.le_elapsed
    exact (h.setupFailed_iff hk).mpr (Or.inl ((hdt.trans_lt hover).trans_le htook))
  · intro F hmem took limit hF hlimit hover
    have hdt := (htight F hmem).2 limit hlimit
    have htook := hF.le_elapsed
    exact (h.teardownFailed_iff hk).mpr (Or.inl ((hdt.trans_lt hover).trans_le htook))

/-- A node that has been set up and torn down keeps the time of a clock by which neither takes too
long. -/
theorem ShowsSpan.keepsTime {a : Arc}
    (h : ShowsSpan n name kind (FixtureDecl.listed typeId fs).fixture dt (.ok (some a)) (.ok ()) w)
    (hs : τ.setup.within dt = .ok (some ())) (ht : τ.teardown.within dt = .ok ()) :
    KeepsTime n τ w := by
  constructor
  · intro f limit q hspawn hjoin
    obtain ⟨-, rfl⟩ := h.spawn_setup.mp hspawn
    obtain rfl := h.eq_of_join_setup hjoin
    exact hs
  · intro limit q hspawn hjoin
    obtain rfl := h.spawn_teardown.mp hspawn
    obtain rfl := h.join_teardown.mp hjoin
    exact ht

end Listed

/-! ## Nodes written with a macro -/

/-- A test written with `#[test]`, or a group written with `group!`, at its place in the tree. -/
inductive MacroNode
  | test (pos : List Nat) (i : Nat) (groupName : Str) (name : Str) (typeId : TypeId)
      (fixtures : List Fixture) (timeout : Option Duration)
  | group (pos : List Nat) (parentNames : List Str) (name : Str) (typeId : TypeId)
      (fixtures : List Fixture) (tests : List TestDecl) (groups : List GroupDecl)

namespace MacroNode

def id : MacroNode → NodeId
  | .test pos i _ _ _ _ _ => .test pos i
  | .group pos _ _ _ _ _ _ => .group pos

/-- The name the node records its events under. -/
def path : MacroNode → Str
  | .test _ _ groupName name _ _ _ => groupName ++ sep ++ name
  | .group _ parentNames name _ _ _ _ => join (parentNames ++ [name])

def kind : MacroNode → Task
  | .test .. => .test
  | .group .. => .group

def typeId : MacroNode → TypeId
  | .test _ _ _ _ typeId _ _ | .group _ _ _ typeId _ _ _ => typeId

def fixtures : MacroNode → List Fixture
  | .test _ _ _ _ _ fs _ | .group _ _ _ _ fs _ _ => fs

/-- `run_test` or `run_group` on what the macro generates. -/
def run (ctx : RunContext) : MacroNode → Future Unit
  | .test pos i groupName name typeId fs timeout =>
    runTest (.test pos i) groupName ctx (TestDecl.test ⟨name, .listed typeId fs, timeout⟩)
  | .group pos parentNames name typeId fs ts gs =>
    runGroup pos parentNames ctx (GroupDecl.group (.mk name (.listed typeId fs) ts gs))

/-- What the node does with its fixture. -/
def inside (ctx : RunContext) : MacroNode → Arc → Future Unit
  | .test pos i groupName name _ _ timeout, a =>
    task.test (.test pos i) (groupName ++ sep ++ name) a (timeout.getD ctx.defaultTimeout)
  | .group pos parentNames name typeId fs ts gs, _ =>
    groupInside pos (parentNames ++ [name])
      (ctx.updateConcurrencyEnabled (FixtureDecl.listed typeId fs).fixture.testCanRunConcurrently)
      (ts.map TestDecl.test) (GroupDecl.groupsOf gs)

variable {m : MacroNode} {ctx : RunContext} {w : List OpCall}

theorem run_eq_span (m : MacroNode) (ctx : RunContext) : m.run ctx =
    span m.id m.path m.kind (FixtureDecl.listed m.typeId m.fixtures).fixture ctx.defaultTimeout
      (m.inside ctx) := by
  cases m with
  | test pos i groupName name typeId fs timeout => exact runTest_eq_span _ _ _ _
  | group pos parentNames name typeId fs ts gs =>
    simp only [run, GroupDecl.group]
    exact runGroup_eq_span _ _ _ _ _ _ _

/-- What the node does with its fixture shows nothing of its setup or teardown. -/
theorem inside_not_isEdge {a : Arc} (h : Completes (m.inside ctx a) w ()) :
    ∀ c ∈ w, isEdge m.id c = false := by
  intro c hc
  cases m with
  | test pos i groupName name typeId fs timeout =>
    obtain ⟨r, rfl⟩ := completes_test.mp h
    rcases r with e | u <;>
    · simp [testWord, singleWord] at hc
      rcases hc with rfl | rfl | rfl | rfl | rfl <;> rfl
  | group pos parentNames name typeId fs ts gs =>
    exact Bool.eq_false_of_not_eq_true fun he => not_group_inside h c hc (node_of_isEdge he)

/-- **A node written with a macro** goes through the span of its generated fixture. -/
theorem exists_showsSpan (h : Completes (m.run ctx) w ()) : ∃ r down,
    ShowsSpan m.id m.path m.kind (FixtureDecl.listed m.typeId m.fixtures).fixture
      ctx.defaultTimeout r down w := by
  rw [run_eq_span, completes_span] at h
  obtain ⟨r, mid, down, rfl, hmid⟩ := h
  refine ⟨r, down, showsSpan_spanWord ?_⟩
  obtain ⟨a, -, hmid⟩ | ⟨-, rfl⟩ := hmid
  · exact inside_not_isEdge hmid
  · exact fun c hc => absurd hc List.not_mem_nil

/-- The node can be set up and torn down, if nothing takes too long. -/
theorem exists_word (m : MacroNode) (ctx : RunContext) (a : Arc) : ∃ w,
    Completes (m.run ctx) w () ∧
      ShowsSpan m.id m.path m.kind (FixtureDecl.listed m.typeId m.fixtures).fixture
        ctx.defaultTimeout (.ok (some a)) (.ok ()) w := by
  obtain ⟨mid, ⟨⟩, hmid⟩ := exists_completes Op.nonempty_result (m.inside ctx a)
  refine ⟨_, ?_, showsSpan_spanWord (inside_not_isEdge hmid)⟩
  rw [run_eq_span, completes_span]
  exact ⟨.ok (some a), mid, .ok (), rfl, Or.inl ⟨a, rfl, hmid⟩⟩

end MacroNode

/-- The fixtures listed are there already, but for one. -/
def metBut (before : List Fixture) (F : Fixture) (m : Met) (after : List Fixture) :
    List (Fixture × Met) :=
  before.map (·, .found) ++ (F, m) :: after.map (·, .found)

theorem metBut_fst (before : List Fixture) (F : Fixture) (m : Met) (after : List Fixture) :
    (metBut before F m after).map Prod.fst = before ++ F :: after := by
  simp [metBut, Function.comp_def]

theorem setup_metBut (before : List Fixture) (F : Fixture) {m : Met} (after : List Fixture)
    (torn : List Torn) (h : m.made = true) :
    (Timing.setup ⟨0, metBut before F m after, 0, torn⟩) = ⟨m.took, .ok (some ())⟩ := by
  have hmade : ∀ k ∈ (metBut before F m after).map Prod.snd, k.made = true := by
    intro k hk
    simp only [metBut, List.map_append, List.map_cons, List.map_map, List.mem_append, List.mem_map,
      List.mem_cons, Function.comp_apply] at hk
    obtain ⟨_, -, rfl⟩ | rfl | ⟨_, -, rfl⟩ := hk
    · rfl
    · exact h
    · rfl
  unfold Timing.setup
  rw [Timed.bind_ok (p := Timed.sleep 0) (a := ()) rfl, setupListed_of_made hmade]
  have hfound : ∀ fs : List Fixture,
      Timed.total (((fs.map fun f => (f, Met.found)).map Prod.snd).map Met.took) = 0 := by
    intro fs
    refine Timed.total_eq_zero fun d hd => ?_
    rw [List.map_map, List.map_map, List.mem_map] at hd
    obtain ⟨_, -, rfl⟩ := hd
    rfl
  rw [metBut, List.map_append, List.map_append, Timed.total_append, List.map_cons, List.map_cons,
    Timed.total_cons, hfound, hfound]
  simp [Timed.sleep]

/-- **Timeouts are honoured**, however long the futures take (they have to yield), if and only if no
fixture listed has a timeout below the default one: a fixture with a tighter one may take longer than
that, and the node passes. -/
theorem timeouts_honoured_iff (m : MacroNode) (ctx : RunContext) :
    (∀ τ w, τ.met.map Prod.fst = m.fixtures → Completes (m.run ctx) w () → KeepsTime m.id τ w →
      Honoured m.id m.path m.kind m.fixtures τ w) ↔ NoneTighter m.fixtures ctx.defaultTimeout := by
  constructor
  · intro h F hF
    obtain ⟨before, after, hfs⟩ := List.append_of_mem hF
    obtain ⟨w, hw, hspan⟩ := m.exists_word ctx 0
    refine ⟨fun limit hlimit => ?_, fun limit hlimit => ?_⟩ <;> by_contra hlt
    · -- setting up takes a little longer than it may, and tearing down no time
      let late : Met := .run (limit + 1) (.ok (some ()))
      have hk : KeepsTime m.id ⟨0, metBut before F late after, 0, []⟩ w := by
        refine hspan.keepsTime ?_ (if_neg (Nat.not_lt_zero _))
        rw [setup_metBut before F after [] rfl]
        exact if_neg (Nat.not_lt.mpr (Nat.lt_of_not_le hlt))
      have hhonoured := h _ w ((metBut_fst ..).trans hfs.symm) hw hk
      have hfailed := hhonoured.setup F (limit + 1) limit
        ⟨_, .ok (some ()), _, rfl, by simp [Met.made]⟩ hlimit (Nat.lt_succ_self limit)
      cases hspan.setupFailed.mp hfailed
    · -- setting up takes no time, and tearing down a little longer than it may
      let late : Torn := ⟨F, limit + 1, .ok ()⟩
      have hk : KeepsTime m.id ⟨0, metBut before F .found after, 0, [late]⟩ w := by
        refine hspan.keepsTime ?_ ?_
        · rw [setup_metBut before F after [late] rfl]
          exact if_neg (Nat.not_lt_zero _)
        · have hdown : (Timing.teardown ⟨0, metBut before F .found after, 0, [late]⟩) =
              ⟨limit + 1, .ok ()⟩ := by
            unfold Timing.teardown
            rw [Timed.bind_ok (p := Timed.sleep 0) (a := ()) rfl,
              teardownEach_of_ok (fun t ht => List.mem_singleton.mp ht ▸ rfl)]
            simp [Timed.sleep, late]
          rw [hdown]
          exact if_neg (Nat.not_lt.mpr (Nat.lt_of_not_le hlt))
      have hhonoured := h _ w ((metBut_fst ..).trans hfs.symm) hw hk
      have hfailed := hhonoured.teardown F hF (limit + 1) limit
        ⟨[], .ok (), [], rfl, fun t ht => absurd ht List.not_mem_nil⟩ hlimit (Nat.lt_succ_self limit)
      cases hspan.teardownFailed.mp hfailed
  · intro htight τ w hmet hw hk
    obtain ⟨r, down, hspan⟩ := m.exists_showsSpan hw
    exact hspan.honoured hk hmet htight

/-- A fixture that may take one second to set up. -/
def hasty : Fixture := { typeId := 2, timeoutSetup := some 1000 }

/-- A test that uses it. -/
def hastyTest : MacroNode := .test [] 0 ['r'] ['x'] 1 [hasty] none

/-- **A timeout that is not honoured**: the fixture takes five seconds, and the setup of the test
passes. -/
theorem timeout_ignored : hasty.timeoutSetup = some 1000 ∧ ∃ τ w,
    τ.met.map Prod.fst = hastyTest.fixtures ∧ Completes (hastyTest.run .new) w () ∧
      KeepsTime hastyTest.id τ w ∧ τ.SetsUp hasty 5000 ∧
      recorded hastyTest.id hastyTest.path .setupPassed ∈ w ∧
      recorded hastyTest.id hastyTest.path (.setupFailed .test) ∉ w := by
  let w : List OpCall := spanWord (.test [] 0) hastyTest.path .test
    (FixtureDecl.listed 1 [hasty]).fixture DEFAULT_TIMEOUT (.ok (some 0))
    (testWord (.test [] 0) hastyTest.path 0 DEFAULT_TIMEOUT (.ok ())) (.ok ())
  have hw : Completes (hastyTest.run .new) w () :=
    completes_runTest.mpr ⟨.ok (some 0), _, .ok (), rfl, Or.inl ⟨0, rfl, .ok (), rfl⟩⟩
  have hspan : ShowsSpan hastyTest.id hastyTest.path .test
      (FixtureDecl.listed 1 [hasty]).fixture DEFAULT_TIMEOUT (.ok (some 0)) (.ok ()) w :=
    showsSpan_spanWord (by decide)
  have hpassed : recorded hastyTest.id hastyTest.path .setupPassed ∈ w :=
    List.mem_append_left _ (mem_openWord.mpr (.inr (.inr (.inr (.inr (.inr rfl))))))
  refine ⟨rfl, ⟨0, [(hasty, .run 5000 (.ok (some ())))], 0, []⟩, w, rfl, hw,
    hspan.keepsTime rfl rfl, ⟨[], .ok (some ()), [], rfl, nofun⟩, hpassed, fun hm => ?_⟩
  cases hspan.setupFailed.mp hm

/-! ## Whole runs -/

section Run

variable {G : FixtureGraph} {config : Config} {d : GroupDecl} {x : Sys} {t : List Label} {s : State}

/-- What a node does in a complete run shows its span. -/
theorem IsSpan.showsSpan {m : Node} {dt : Duration} {w : List OpCall}
    (h : IsSpan m dt (E2etest.proj m.id w)) :
    ∃ r down, ShowsSpan m.id m.path m.kind m.fixture dt r down w := by
  obtain ⟨r, mid, down, hw, hmid⟩ := h
  have hquiet : ∀ c ∈ mid, isEdge m.id c = false := by
    obtain ⟨a, -, hmid⟩ | ⟨-, rfl⟩ := hmid
    · split at hmid
      · obtain ⟨timeout, body, rfl⟩ := hmid
        rcases body with e | u <;>
        · simp [testWord, singleWord, testEvent, isEdge, recorded]
      · rw [hmid]
        exact fun c hc => absurd hc List.not_mem_nil
    · exact fun c hc => absurd hc List.not_mem_nil
  refine ⟨r, down, fun c hc => ?_⟩
  rw [← showsSpan_spanWord hquiet c hc, ← hw, mem_proj]
  exact (and_iff_left (node_of_isEdge hc)).symm

/-- **In a complete run** the timeouts of every node written with a macro are honoured, if no fixture
it lists has a timeout below the default one. -/
theorem timeouts_honoured_of_run (hx : run config d.group = some x) (h : Sys.Completes G x t s)
    {n : Node} {typeId : TypeId} {fs : List Fixture}
    (hn : (n, .listed typeId fs) ∈ d.nodes [] []) (hran : proj n.id (calls t) ≠ []) {τ : Timing}
    (hmet : τ.met.map Prod.fst = fs) (hk : KeepsTime n.id τ (calls t))
    (htight : NoneTighter fs config.defaultTimeout) :
    Honoured n.id n.path n.kind fs τ (calls t) := by
  have hmem : n ∈ d.group.nodes [] [] := by
    rw [← GroupDecl.nodes_map]
    exact List.mem_map_of_mem hn
  have hspan := ((completes_runWord hx h).proj hmem).resolve_left hran
  obtain ⟨r, down, hshows⟩ := hspan.showsSpan
  rw [GroupDecl.nodes_fixture [] [] d _ hn] at hshows
  exact hshows.honoured hk hmet htight

end Run

end E2etest
