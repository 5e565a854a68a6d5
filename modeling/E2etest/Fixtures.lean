import E2etest.Tree
import Mathlib.Data.List.AList
import Mathlib.Order.WellFounded

/-!
# The fixture manager (`fixture.rs`)

`Inner` is the manager's two maps, with the memory behind them: the type of every allocation, every
`Arc` that is held outside the maps, and by whom, and the calls the manager made into user code.
`strongCount` counts what points to an allocation.

`F::setup` is user code. A `Script` is what one call of it does: the calls of `Setup::setup`,
`Setup::get` and `Arc::clone` it makes, and how it ends. Every behaviour is some script, so a
statement about all scripts is a statement about all fixtures. `FixtureGraph` says which fixtures
a fixture may set up; it has no cycles, since a setup that waits for itself never ends.

`Inner::teardown` awaits user code between two visits of the cache, and other tasks drop their
`Arc`s meanwhile; its loop is therefore taken apart into steps in `State.lean`. Here are the
operations it is made of.
-/

namespace E2etest

/-- An `Arc`, by the number of its allocation. -/
abbrev Arc := Nat

/-- Who holds an `Arc`: the local variable of a node, the output of a node's task, the future of a
test's body, a field of a fixture. -/
inductive Holder
  | node (n : NodeId)
  | task (n : NodeId)
  | body (n : NodeId)
  | inst (a : Arc)
  deriving DecidableEq, Repr

/-- What passes between the manager and user code. -/
inductive FixtureCall
  /-- `F::setup` is called. -/
  | setup (f : TypeId)
  /-- `F::setup` returned a fixture. -/
  | made (f : TypeId) (a : Arc)
  /-- `Setup::setup::<F>` returned. -/
  | returned (f : TypeId) (r : Option Arc)
  /-- `Fixture::teardown` is called. -/
  | teardown (a : Arc)
  deriving DecidableEq, Repr

/-- `Inner`, and the memory its `Arc`s point into. -/
structure Inner where
  permanent : AList fun _ : TypeId => Arc
  cache : AList fun _ : TypeId => Arc
  heap : List TypeId
  arcs : List (Holder × Arc)
  calls : List FixtureCall

namespace Inner

/-- `Inner::new`. -/
def new : Inner := ⟨∅, ∅, [], [], []⟩

/-- `Inner::with_permanent`, for values of the given types. -/
def withPermanent (types : List TypeId) : Inner :=
  types.foldl (fun s f =>
    { s with permanent := s.permanent.insert f s.heap.length, heap := s.heap ++ [f] }) new

def log (s : Inner) (c : FixtureCall) : Inner := { s with calls := s.calls ++ [c] }

/-- Give an `Arc` to a holder. -/
def hold (s : Inner) (h : Holder) (a : Arc) : Inner := { s with arcs := s.arcs ++ [(h, a)] }

/-- Drop everything a holder holds. -/
def release (s : Inner) (h : Holder) : Inner := { s with arcs := s.arcs.filter fun p => p.1 ≠ h }

/-- What a holder holds. -/
def heldBy (s : Inner) (h : Holder) : List Arc := (s.arcs.filter fun p => p.1 = h).map Prod.snd

/-- `Arc::strong_count`. -/
def strongCount (s : Inner) (a : Arc) : Nat :=
  s.cache.entries.countP (fun e => e.2 = a) + s.permanent.entries.countP (fun e => e.2 = a) +
    s.arcs.countP (fun p => p.2 = a)

/-- `downcast::<F>().unwrap()`; an error is the panic. -/
def downcast (s : Inner) (f : TypeId) (a : Arc) : Except Unit (Option Arc) :=
  if s.heap[a]? = some f then .ok (some a) else .error ()

/-- `Setup::get`. -/
def get (s : Inner) (f : TypeId) : Except Unit (Option Arc) :=
  match s.permanent.lookup f with
  | some a => s.downcast f a
  | none =>
    match s.cache.lookup f with
    | some a => s.downcast f a
    | none => .ok none

/-- `Arc::new(fixture)`, put into the cache under its type. -/
def insert (s : Inner) (f : TypeId) (held : List Arc) : Inner :=
  { s with
    cache := s.cache.insert f s.heap.length
    heap := s.heap ++ [f]
    arcs := s.arcs ++ held.map fun a => (.inst s.heap.length, a)
    calls := s.calls ++ [.made f s.heap.length] }

/-- Return to the caller of `Setup::setup::<F>`; a panic goes on unwinding instead. -/
def reply (s : Inner) (f : TypeId) (r : Except Unit (Option Arc)) :
    Inner × Except Unit (Option Arc) :=
  match r with
  | .ok a => (s.log (.returned f a), .ok a)
  | .error e => (s, .error e)

/-- `Setup::setup::<F>`, given `F::setup`. The latter returns what the new fixture holds. -/
def setup (f : TypeId) (fSetup : Inner → Inner × Except Unit (Option (List Arc))) (s : Inner) :
    Inner × Except Unit (Option Arc) :=
  if f ∈ s.permanent ∨ f ∈ s.cache then s.reply f (s.get f)
  else
    match fSetup (s.log (.setup f)) with
    | (s, .ok (some held)) => (s.insert f held).reply f (.ok (some s.heap.length))
    | (s, .ok none) => s.reply f (.ok none)
    | (s, .error e) => (s, .error e)

/-- Take the fixture of type `f` out of the cache. -/
def extract (s : Inner) (f : TypeId) : Inner := { s with cache := s.cache.erase f }

end Inner

/-- What one call of a `Fixture::setup` does. The `Arc`s it gets on the way are numbered in
order. -/
inductive Script
  /-- Return a fixture that holds clones of the `Arc`s with these numbers. -/
  | done (keep : List Nat)
  /-- Return `None`. -/
  | skip
  /-- Panic, or never wake up again before the timeout. -/
  | abort
  /-- `setup.setup::<F>().await`; `run` is what `F::setup` does if it is called. -/
  | setup (f : TypeId) (run next : Script)
  /-- `setup.get::<F>().await`. -/
  | get (f : TypeId) (next : Script)
  /-- Clone the `Arc` number `j` held by the fixture number `i`. -/
  | clone (i j : Nat) (next : Script)

namespace Script

/-- The call, having got the `Arc`s `got`. A dropped future drops what it has got. -/
def run : Script → List Arc → Inner → Inner × Except Unit (Option (List Arc))
  | .done keep, got, s => (s, .ok (some (keep.filterMap fun i => got[i]?)))
  | .skip, _, s => (s, .ok none)
  | .abort, _, s => (s, .error ())
  | .setup f run next, got, s =>
    match s.setup f (run.run []) with
    | (s, .ok (some a)) => next.run (got ++ [a]) s
    | (s, .ok none) => next.run got s
    | (s, .error e) => (s, .error e)
  | .get f next, got, s =>
    match s.get f with
    | .ok (some a) => next.run (got ++ [a]) s
    | .ok none => next.run got s
    | .error e => (s, .error e)
  | .clone i j next, got, s =>
    match got[i]?.bind fun a => (s.heldBy (.inst a))[j]? with
    | some b => next.run (got ++ [b]) s
    | none => next.run got s

end Script

/-- Which fixtures the setup of a fixture may set up. -/
structure FixtureGraph where
  dep : TypeId → TypeId → Bool
  acyclic : WellFounded fun d f => dep f d = true

/-- A fixture may set up those with a smaller type. -/
def FixtureGraph.onSmaller : FixtureGraph :=
  ⟨fun f d => decide (d < f), by simpa using wellFounded_lt⟩

/-- A call of `F::setup` sets up only fixtures it may set up, and they in turn. -/
def Script.respects (G : FixtureGraph) : TypeId → Script → Bool
  | _, .done _ | _, .skip | _, .abort => true
  | f, .setup d run next => G.dep f d && run.respects G d && next.respects G f
  | f, .get _ next => next.respects G f
  | f, .clone _ _ next => next.respects G f

end E2etest
