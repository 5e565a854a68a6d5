import E2etest.Async.Actor
import E2etest.Os.Process
import E2etest.Text.Path
import Mathlib.Data.Finset.Image

/-!
# The DNS server (`e2etest-dns`)

The actor keeps A records in a zone handler of the `hickory` library, which is a parameter of the
model (`Hickory`), with what its documentation says of the calls the actor makes (`Hickory.Laws`).

`zone_iff`: when the zone holds, for every name, the address of the last `Upsert` that no `Remove`
follows. The handler's `upsert` replaces only an equal record, so an address upserted before the
last one stays.
-/

namespace E2etest

open Async Os Text

/-- `Dns`. The flag `tx` says that the answer is still waited for. -/
inductive Dns
  | version (tx : Bool)
  | domain (tx : Bool)
  | remove (name : Str)
  | upsert (name : Str) (ip : Ipv4Addr)
  deriving DecidableEq, Repr

namespace dns

/-- `RecordType`, as far as the actor uses it. -/
inductive RecordType
  | a
  | soa
  deriving DecidableEq, Repr

/-- `RData`, as far as the actor uses it. -/
inductive RData
  | a (ip : Ipv4Addr)
  | soa
  deriving DecidableEq, Repr

/-- `RData::record_type`. -/
def RData.recordType : RData → RecordType
  | .a _ => .a
  | .soa => .soa

/-- `Record`: its class is `DNSClass::IN` throughout. -/
structure Record (Name : Type) where
  name : Name
  ttl : UInt32
  rdata : RData

/-- `RrKey`. -/
structure RrKey (LowerName : Type) where
  name : LowerName
  recordType : RecordType
  deriving DecidableEq

/-- What the actor uses of the `hickory` library. -/
structure Hickory where
  Name : Type
  LowerName : Type
  [decEq : DecidableEq LowerName]
  /-- `InMemoryZoneHandler`. -/
  Zone : Type
  /-- `Name::from_str`. -/
  parseName : Str → Option Name
  /-- `LowerName::from_str`. -/
  parseLowerName : Str → Option LowerName
  /-- `LowerName::from`. -/
  lower : Name → LowerName
  /-- `InMemoryZoneHandler::empty`. -/
  empty : Name → Zone
  /-- The data in the record set of a key. -/
  rrset : Zone → RrKey LowerName → Finset RData
  /-- `InMemoryZoneHandler::upsert`. -/
  upsert : Zone → Record Name → UInt32 → Zone
  /-- `records_mut().remove`. -/
  remove : Zone → RrKey LowerName → Zone

attribute [instance] Hickory.decEq

/-- The key a record is kept under. -/
def Hickory.key (H : Hickory) (r : Record H.Name) : RrKey H.LowerName :=
  ⟨H.lower r.name, r.rdata.recordType⟩

/-- What the library's documentation says of the calls: a `LowerName` is the parsed name in lower
case; a new zone is empty; `upsert` adds an A record to the record set of its name and type, where
it replaces only a record with equal data, and leaves the other record sets as they are; `remove`
drops the record set of its key. -/
structure Hickory.Laws (H : Hickory) : Prop where
  parse : ∀ s, H.parseLowerName s = (H.parseName s).map H.lower
  empty : ∀ n k, H.rrset (H.empty n) k = ∅
  upsert_a : ∀ z r serial ip, r.rdata = .a ip →
    H.rrset (H.upsert z r serial) (H.key r) = insert r.rdata (H.rrset z (H.key r))
  upsert_ne : ∀ z r serial k, k ≠ H.key r → H.rrset (H.upsert z r serial) k = H.rrset z k
  remove_self : ∀ z k, H.rrset (H.remove z k) k = ∅
  remove_ne : ∀ z k k', k' ≠ k → H.rrset (H.remove z k) k' = H.rrset z k'

/-- `ZONE`. -/
def ZONE : Str := "validator.test.".toList

/-- `TTL`. -/
def TTL : UInt32 := 60

/-- `State`, less the version. -/
structure State (H : Hickory) where
  authority : H.Zone
  serial : UInt32

variable (H : Hickory) (overflowChecks : Bool)

/-- `State::new`: the zone with its SOA record. -/
def State.new (zone : H.Name) : State H where
  authority := H.upsert (H.empty zone) ⟨zone, TTL, .soa⟩ 0
  serial := 0

/-- `format!("{name}.{ZONE}")`. -/
def fullName (name : Str) : Str := name ++ '.' :: ZONE

/-- `remove`. -/
def remove (name : Str) (state : State H) : Code Unit (State H) := do
  let name ← Code.expect (H.parseLowerName (fullName name))
  return { state with authority := H.remove state.authority ⟨name, .a⟩ }

/-- `upsert`. The serial number wraps, unless the build checks for overflow. -/
def upsert (name : Str) (ip : Ipv4Addr) (state : State H) : Code Unit (State H) := do
  let name ← Code.expect (H.parseName (fullName name))
  let serial := state.serial
  Code.ensure (!overflowChecks || serial != 0xFFFFFFFF)
  return ⟨H.upsert state.authority ⟨name, TTL, .a ip⟩ serial, serial + 1⟩

/-- `process`. -/
def process : Dns → State H → Code Unit (State H)
  | .version tx, state => do
    Code.ensure tx
    return state
  | .domain tx, state => do
    Code.ensure tx
    return state
  | .remove name, state => remove H name state
  | .upsert name ip, state => upsert H overflowChecks name ip state

/-! ## What the messages ask for -/

section Asked

variable {H}

/-- The name of a message, as the zone knows it. -/
def zoneName (name : Str) : Option H.LowerName := H.parseLowerName (fullName name)

/-- The address the messages give the name `n`, from `ip` on: that of the last `Upsert` for it that
no `Remove` for it follows. -/
def expected (n : H.LowerName) (ip : Option Ipv4Addr) : List Dns → Option Ipv4Addr
  | [] => ip
  | .upsert name ip' :: ms =>
    expected n (if zoneName name = some n then some ip' else ip) ms
  | .remove name :: ms => expected n (if zoneName name = some n then none else ip) ms
  | .version _ :: ms | .domain _ :: ms => expected n ip ms

/-- The addresses of all the `Upsert`s for the name `n` that no `Remove` for it follows, beside
`ips`. -/
def upserted (n : H.LowerName) (ips : Finset Ipv4Addr) : List Dns → Finset Ipv4Addr
  | [] => ips
  | .upsert name ip :: ms =>
    upserted n (if zoneName name = some n then insert ip ips else ips) ms
  | .remove name :: ms => upserted n (if zoneName name = some n then ∅ else ips) ms
  | .version _ :: ms | .domain _ :: ms => upserted n ips ms

/-- The address asked for is one of those upserted, and there is one when any is upserted. -/
theorem expected_mem_upserted (n : H.LowerName) :
    ∀ (ms : List Dns) (ip : Option Ipv4Addr) (ips : Finset Ipv4Addr),
      (ip = none → ips = ∅) → (∀ a, ip = some a → a ∈ ips) →
      (expected n ip ms = none → upserted n ips ms = ∅) ∧
        ∀ a, expected n ip ms = some a → a ∈ upserted n ips ms
  | [], ip, ips, hnone, hsome => ⟨hnone, hsome⟩
  | .upsert name ip' :: ms, ip, ips, hnone, hsome => by
    refine expected_mem_upserted n ms _ _ ?_ ?_ <;> split
    · nofun
    · exact hnone
    · rintro _ ⟨⟩
      exact Finset.mem_insert_self _ ips
    · exact hsome
  | .remove name :: ms, ip, ips, hnone, hsome => by
    refine expected_mem_upserted n ms _ _ ?_ ?_ <;> split
    · exact fun _ => rfl
    · exact hnone
    · nofun
    · exact hsome
  | .version _ :: ms, ip, ips, hnone, hsome | .domain _ :: ms, ip, ips, hnone, hsome =>
    expected_mem_upserted n ms ip ips hnone hsome

/-- The answer to the message is waited for, and its name can be parsed. -/
def Valid (H : Hickory) : Dns → Prop
  | .version tx | .domain tx => tx = true
  | .remove name | .upsert name _ => (H.parseName (fullName name)).isSome

end Asked

/-! ## What the zone holds -/

variable {H} {overflowChecks}

/-- The A records of the name `n`. -/
def aRecords (state : State H) (n : H.LowerName) : Finset RData := H.rrset state.authority ⟨n, .a⟩

section Laws

variable (hH : H.Laws) {state state' : State H} {name : Str} {ip : Ipv4Addr} {u : Unit}

include hH

theorem aRecords_new (zone : H.Name) (n : H.LowerName) : aRecords (State.new H zone) n = ∅ := by
  have hne : (⟨n, .a⟩ : RrKey H.LowerName) ≠ H.key ⟨zone, TTL, .soa⟩ := by
    simp [Hickory.key, RData.recordType]
  unfold aRecords State.new
  rw [hH.upsert_ne _ _ _ _ hne, hH.empty]

theorem zoneName_of_parse {m : H.Name} (h : H.parseName (fullName name) = some m) :
    zoneName name = some (H.lower m) := by
  unfold zoneName
  rw [hH.parse, h]
  rfl

theorem aRecords_remove (h : remove H name state u = (some state', ())) (n : H.LowerName) :
    aRecords state' n = if zoneName name = some n then ∅ else aRecords state n := by
  unfold remove at h
  change _ = if H.parseLowerName (fullName name) = some n then _ else _
  cases hp : H.parseLowerName (fullName name) with
  | none =>
    rw [hp] at h
    cases h
  | some m =>
    rw [hp] at h
    cases h
    unfold aRecords
    split
    · rename_i he
      obtain rfl := Option.some.inj he
      exact hH.remove_self _ _
    · rename_i he
      exact hH.remove_ne _ _ _ fun hk => he (congrArg (fun k => some k.name) hk).symm

theorem aRecords_upsert (h : upsert H overflowChecks name ip state u = (some state', ()))
    (n : H.LowerName) : aRecords state' n =
      if zoneName name = some n then insert (.a ip) (aRecords state n) else aRecords state n := by
  unfold upsert at h
  cases hp : H.parseName (fullName name) with
  | none =>
    rw [hp] at h
    cases h
  | some m =>
    rw [hp] at h
    cases hc : (!overflowChecks || state.serial != 0xFFFFFFFF) with
    | false =>
      simp only [Code.expect_some, Code.pure_bind, hc] at h
      cases h
    | true =>
      simp only [Code.expect_some, Code.pure_bind, hc] at h
      cases h
      rw [zoneName_of_parse hH hp, aRecords]
      split
      · rename_i he
        obtain rfl := Option.some.inj he
        exact hH.upsert_a _ ⟨m, TTL, .a ip⟩ _ ip rfl
      · rename_i he
        exact hH.upsert_ne _ _ _ _ fun hk => he (congrArg (fun k => some k.name) hk).symm

/-- **What the zone holds after the messages**: every address upserted since the last removal. -/
theorem aRecords_serve {ms : List Dns} (ips : H.LowerName → Finset Ipv4Addr)
    (hips : ∀ n, aRecords state n = (ips n).image .a)
    (h : serve (process H overflowChecks) ms state () = (some state', ())) (n : H.LowerName) :
    aRecords state' n = (upserted n (ips n) ms).image .a := by
  induction ms generalizing state ips with
  | nil =>
    cases h
    exact hips n
  | cons m ms ih =>
    rcases hm : process H overflowChecks m state () with ⟨_ | s, ⟨⟩⟩
    · rw [serve_cons_none hm] at h
      cases h
    rw [serve_cons_some hm] at h
    cases m with
    | version tx =>
      cases tx <;> cases hm
      exact ih ips hips h
    | domain tx =>
      cases tx <;> cases hm
      exact ih ips hips h
    | remove name =>
      refine ih (fun n => if zoneName name = some n then ∅ else ips n) (fun n => ?_) h
      rw [aRecords_remove hH hm]
      split
      · rfl
      · exact hips n
    | upsert name ip =>
      refine ih (fun n => if zoneName name = some n then insert ip (ips n) else ips n)
        (fun n => ?_) h
      rw [aRecords_upsert hH hm]
      split
      · rw [hips, Finset.image_insert]
      · exact hips n

/-- Messages whose names can be parsed are processed. -/
theorem exists_serve (state : State H) (ms : List Dns) (hv : ∀ m ∈ ms, Valid H m) :
    ∃ state', serve (process H false) ms state () = (some state', ()) := by
  induction ms generalizing state with
  | nil => exact ⟨state, rfl⟩
  | cons m ms ih =>
    obtain ⟨hm, hms⟩ := List.forall_mem_cons.mp hv
    have hstep : ∃ s, process H false m state () = (some s, ()) := by
      cases m with
      | version tx | domain tx =>
        obtain rfl : tx = true := hm
        exact ⟨state, rfl⟩
      | remove name =>
        obtain ⟨m, hp⟩ := Option.isSome_iff_exists.mp hm
        have hz := zoneName_of_parse hH hp
        unfold zoneName at hz
        rw [process, remove, hz]
        exact ⟨_, rfl⟩
      | upsert name ip =>
        obtain ⟨m, hp⟩ := Option.isSome_iff_exists.mp hm
        rw [process, upsert, hp]
        exact ⟨_, rfl⟩
    obtain ⟨s, hs⟩ := hstep
    rw [serve_cons_some hs]
    exact ih s hms

end Laws

/-- The zone holds, for every name, the address that the messages ask for, and no other. -/
def ZoneIs (ms : List Dns) (state : State H) : Prop :=
  ∀ n, aRecords state n = match expected n none ms with
    | some ip => {.a ip}
    | none => ∅

/-- **The zone holds what the messages ask for** exactly when, for every name, the `Upsert`s for it
since the last `Remove` for it all carry one address. -/
theorem zone_iff (hH : H.Laws) {zone : H.Name} {ms : List Dns} {state : State H}
    (hs : serve (process H overflowChecks) ms (State.new H zone) () = (some state, ())) :
    ZoneIs ms state ↔
      ∀ n : H.LowerName, ∀ ip ∈ upserted n ∅ ms, ∀ ip' ∈ upserted n ∅ ms, ip = ip' := by
  have hr := aRecords_serve hH (fun _ => ∅)
    (fun n => (aRecords_new hH zone n).trans (Finset.image_empty _).symm) hs
  refine forall_congr' fun n => ?_
  obtain ⟨hnone, hsome⟩ := expected_mem_upserted n ms none ∅ (fun _ => rfl) nofun
  rw [hr]
  cases he : expected n none ms with
  | none => simp [hnone he]
  | some a =>
    have ha := hsome a he
    constructor
    · intro hset ip hip ip' hip'
      have hmem : ∀ q ∈ upserted n ∅ ms, q = a := fun q hq => by
        have := Finset.mem_image_of_mem RData.a hq
        rw [hset, Finset.mem_singleton] at this
        exact RData.a.inj this
      rw [hmem ip hip, hmem ip' hip']
    · intro hall
      have hone : upserted n ∅ ms = {a} :=
        Finset.eq_singleton_iff_unique_mem.mpr ⟨ha, fun q hq => hall q hq a ha⟩
      rw [hone, Finset.image_singleton]

/-! ## A concrete handler -/

/-- A zone handler that keeps record sets by name and type, for names made of letters, digits,
hyphens and dots. -/
def simple : Hickory where
  Name := Str
  LowerName := Str
  Zone := RrKey Str → Finset RData
  parseName s := if s.all fun c => c.isAlphanum || c == '-' || c == '.' then some s else none
  parseLowerName s := if s.all fun c => c.isAlphanum || c == '-' || c == '.' then
    some (s.map Char.toLower) else none
  lower s := s.map Char.toLower
  empty _ _ := ∅
  rrset z k := z k
  upsert z r _ k := if k = ⟨r.name.map Char.toLower, r.rdata.recordType⟩ then insert r.rdata (z k)
    else z k
  remove z k k' := if k' = k then ∅ else z k'

theorem simple_laws : simple.Laws where
  parse s := by
    simp only [simple]
    split <;> rfl
  empty _ _ := rfl
  upsert_a _ _ _ _ _ := if_pos rfl
  upsert_ne _ _ _ _ h := if_neg h
  remove_self _ _ := if_pos rfl
  remove_ne _ _ _ h := if_neg h

/-- An address upserted twice, under names that differ in case. -/
theorem zone_iff_simple : ∃ state, serve (process simple false)
      [.upsert ['a'] 1, .upsert ['A'] 1] (State.new simple ZONE) () = (some state, ()) ∧
    (ZoneIs [.upsert ['a'] 1, .upsert ['A'] 1] state ↔ ∀ n : simple.LowerName,
      ∀ ip ∈ upserted n ∅ [.upsert ['a'] 1, .upsert ['A'] 1],
        ∀ ip' ∈ upserted n ∅ [.upsert ['a'] 1, .upsert ['A'] 1], ip = ip') := by
  obtain ⟨state, hs⟩ := exists_serve simple_laws (State.new simple ZONE)
    [.upsert ['a'] 1, .upsert ['A'] 1] (by simp [Valid]; decide)
  exact ⟨state, hs, zone_iff simple_laws hs⟩

/-- **A stale address stays**: the name is upserted to `1`, and then to `2`. -/
theorem upsert_keeps_stale : ∃ state, serve (process simple false)
      [.upsert ['a'] 1, .upsert ['a'] 2] (State.new simple ZONE) () = (some state, ()) ∧
    ¬ ZoneIs [.upsert ['a'] 1, .upsert ['a'] 2] state := by
  obtain ⟨state, hs⟩ := exists_serve simple_laws (State.new simple ZONE)
    [.upsert ['a'] 1, .upsert ['a'] 2] (by simp [Valid]; decide)
  refine ⟨state, hs, fun h => ?_⟩
  have := (zone_iff simple_laws hs).mp h ("a.validator.test.".toList) 1 (by decide) 2 (by decide)
  exact absurd this (by decide)

end dns

end E2etest
