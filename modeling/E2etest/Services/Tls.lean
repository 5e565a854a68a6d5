import E2etest.Async.Channel
import E2etest.Os.Process
import E2etest.Text.Path

/-!
# The TLS certificates (`e2etest-tls`)

`new` makes a self-signed certificate for some addresses, writes it and its key to temporary files,
and reads it back for the configuration of a client. The actor answers with the two paths and the
configuration, and owns the files: they are gone when its loop ends. What `rcgen` and `rustls`
compute is a parameter (`Crypto`).

* `new_some`, `new_none`: `new` publishes the certificate, or leaves the files as they were.
* `tls_serves`: every answer is what `new` published, for as long as anyone may read it. An answer
  that nobody waits for is dropped, so that no client fails, whoever else is cancelled.
-/

namespace E2etest

open Async Os Text Channel

/-- `Tls`. -/
inductive Tls
  | certPath
  | keyPath
  | clientTlsConfig
  deriving DecidableEq, Repr

namespace tls

/-- What `rcgen` and `rustls` compute. -/
structure Crypto where
  Cert : Type
  SigningKey : Type
  CertificateDer : Type
  ClientConfig : Type
  /-- `rcgen::generate_simple_self_signed`. -/
  generateSimpleSelfSigned : List Str → Option (Cert × SigningKey)
  /-- `Certificate::pem`. -/
  pem : Cert → List UInt8
  /-- `KeyPair::serialize_pem`. -/
  serializePem : SigningKey → List UInt8
  /-- `CertificateDer::pem_slice_iter`, with its items collected. -/
  pemSliceIter : List UInt8 → Option (List CertificateDer)
  /-- The configuration of a client with these root certificates and no certificate of its own. -/
  config : List CertificateDer → ClientConfig

/-- `NamedTempFile`: the number of its path. -/
abbrev TempFile := Nat

/-- What is in a file, and its permissions. -/
structure File where
  bytes : List UInt8
  mode : Nat
  deriving DecidableEq, Repr

/-- The temporary files, the path of the next one, and which calls to the system succeed. -/
structure Disk where
  files : TempFile → Option File := fun _ => none
  next : TempFile := 0
  calls : Nat := 0
  succeeds : Nat → Bool

namespace Disk

/-- A call is made. -/
def called (d : Disk) : Disk := { d with calls := d.calls + 1 }

/-- A file is written or removed. -/
def set (d : Disk) (f : TempFile) (c : Option File) : Disk :=
  { d with files := Function.update d.files f c }

end Disk

/-- A call to the system that has to succeed. -/
def call : Code Disk Unit := fun d =>
  if d.succeeds d.calls then (some (), d.called) else (none, d.called)

/-- A new file appears. -/
def create : Code Disk TempFile := fun d =>
  (some d.next, { d.set d.next (some ⟨[], 0o600⟩) with next := d.next + 1 })

/-- `NamedTempFile::new`. -/
def newNamedTempFile : Code Disk TempFile := do
  call
  create

/-- What is in the file. -/
def contents (f : TempFile) : Code Disk File := fun d => Code.expect (d.files f) d

/-- A call that changes a file. -/
def change (f : TempFile) (g : File → File) : Code Disk Unit := do
  call
  let file ← contents f
  Code.update fun d => d.set f (some (g file))

/-- `write_all`, where the file ends. -/
def writeAll (f : TempFile) (bytes : List UInt8) : Code Disk Unit :=
  change f fun file => { file with bytes := file.bytes ++ bytes }

/-- `std::fs::set_permissions`. -/
def setPermissions (f : TempFile) (mode : Nat) : Code Disk Unit :=
  change f fun file => { file with mode }

/-- `std::fs::read`. -/
def read (f : TempFile) : Code Disk (List UInt8) := do
  call
  return (← contents f).bytes

/-- The file is dropped, and removed, when the code panics. -/
def owning {α : Type} (f : TempFile) (x : Code Disk α) : Code Disk α := fun d =>
  match x d with
  | (some a, d') => (some a, d')
  | (none, d') => (none, d'.set f none)

/-- What the actor owns. -/
structure State (C : Crypto) where
  certFile : TempFile
  keyFile : TempFile
  clientTlsConfig : C.ClientConfig

/-- `Ipv4Addr::to_string`. -/
def ipToString (ip : Ipv4Addr) : Str :=
  ".".toList.intercalate ([24, 16, 8, 0].map fun s => Nat.toDigits 10 ((ip.toNat >>> s) % 256))

variable (C : Crypto)

/-- `new`, up to where the actor is spawned. -/
def new (ips : List Ipv4Addr) : Code Disk (State C) := do
  let (cert, signingKey) ← Code.expect (C.generateSimpleSelfSigned (ips.map ipToString))
  let certFile ← newNamedTempFile
  owning certFile do
    writeAll certFile (C.pem cert)
    let keyFile ← newNamedTempFile
    owning keyFile do
      writeAll keyFile (C.serializePem signingKey)
      setPermissions certFile 0o644
      setPermissions keyFile 0o644
      let certPem ← read certFile
      let caDer ← Code.expect (C.pemSliceIter certPem)
      return ⟨certFile, keyFile, C.config caDer⟩

/-- What a request is answered with. -/
def Reply : Tls → Type
  | .certPath | .keyPath => TempFile
  | .clientTlsConfig => C.ClientConfig

variable {C}

/-- The answers of the actor. -/
def State.reply (state : State C) : ∀ q, Reply C q
  | .certPath => state.certFile
  | .keyPath => state.keyFile
  | .clientTlsConfig => state.clientTlsConfig

variable (C)

/-- The actor: `_ = tx.send(..)` for each message, and the files are dropped with the task. -/
def service : Service Tls (Reply C) (State C) Disk where
  told _ := none
  process q _ state := return (state, state.reply q)
  stop state := do
    Code.update fun d => (d.set state.keyFile none).set state.certFile none
    return state

/-! ## What `new` leaves of the files -/

/-- The code changes no other files than these, and none of the next paths is given back. -/
def Within {α : Type} (fs : List TempFile) (x : Code Disk α) : Prop :=
  ∀ d, d.next ≤ (x d).2.next ∧ ∀ f ∉ fs, (x d).2.files f = d.files f

/-- A panic leaves every other file than these as it was, or it is new and removed again. -/
def Restores {α : Type} (fs : List TempFile) (x : Code Disk α) : Prop :=
  ∀ d d', x d = (none, d') → ∀ f ∉ fs, d'.files f = d.files f ∨ d.next ≤ f ∧ d'.files f = none

section Files

variable {α β : Type} {fs : List TempFile} {f g : TempFile} {d d' : Disk}

@[simp] theorem called_files (d : Disk) : d.called.files = d.files := rfl

@[simp] theorem called_next (d : Disk) : d.called.next = d.next := rfl

@[simp] theorem set_next (d : Disk) (f : TempFile) (c : Option File) : (d.set f c).next = d.next :=
  rfl

@[simp] theorem set_self (d : Disk) (f : TempFile) (c : Option File) : (d.set f c).files f = c :=
  Function.update_self _ _ _

theorem set_ne (c : Option File) (h : g ≠ f) : (d.set f c).files g = d.files g :=
  Function.update_of_ne h _ _

theorem within_pure (a : α) : Within fs (pure a) := fun _ => ⟨le_rfl, fun _ _ => rfl⟩

theorem within_expect (o : Option α) : Within fs (Code.expect o) := by
  intro d
  cases o <;> exact ⟨le_rfl, fun _ _ => rfl⟩

theorem within_bind {x : Code Disk α} {k : α → Code Disk β} (hx : Within fs x)
    (hk : ∀ a, Within fs (k a)) : Within fs (x >>= k) := by
  intro d
  obtain ⟨hnext, hfiles⟩ := hx d
  rcases h : x d with ⟨_ | a, d'⟩
  · rw [h] at hnext hfiles
    rw [Code.bind_none h]
    exact ⟨hnext, hfiles⟩
  · rw [h] at hnext hfiles
    rw [Code.bind_some h]
    exact ⟨hnext.trans (hk a d').1, fun f hf => ((hk a d').2 f hf).trans (hfiles f hf)⟩

theorem within_call : Within fs call := by
  intro d
  unfold call
  split <;> exact ⟨le_rfl, fun _ _ => rfl⟩

theorem within_contents (f : TempFile) : Within fs (contents f) := fun d => by
  unfold contents
  cases d.files f <;> exact ⟨le_rfl, fun _ _ => rfl⟩

theorem within_change {k : File → File} (hf : f ∈ fs) : Within fs (change f k) := by
  refine within_bind within_call fun _ => within_bind (within_contents f) fun file d => ?_
  exact ⟨le_rfl, fun g hg => set_ne _ (ne_of_mem_of_not_mem hf hg).symm⟩

theorem within_read (f : TempFile) : Within fs (read f) :=
  within_bind within_call fun _ => within_bind (within_contents f) fun _ => within_pure _

theorem Within.restores {x : Code Disk α} (h : Within fs x) : Restores fs x := by
  intro d d' hx f hf
  have := (h d).2 f hf
  rw [hx] at this
  exact Or.inl this

theorem restores_bind {x : Code Disk α} {k : α → Code Disk β} (hx : Within fs x)
    (hk : ∀ a, Restores fs (k a)) : Restores fs (x >>= k) := by
  intro d d' h f hf
  obtain ⟨hnext, hfiles⟩ := hx d
  rcases ha : x d with ⟨_ | a, d₁⟩
  · rw [Code.bind_none ha] at h
    cases h
    rw [ha] at hfiles
    exact Or.inl (hfiles f hf)
  · rw [Code.bind_some ha] at h
    rw [ha] at hnext hfiles
    rw [← hfiles f hf]
    exact (hk a d₁ d' h f hf).imp_right (And.imp_left hnext.trans)

theorem call_eq_some {u : Unit} : call d = (some u, d') ↔ d.succeeds d.calls = true ∧ d' = d.called := by
  unfold call
  split <;> simp [*, eq_comm]

theorem change_eq_some {k : File → File} {u : Unit} (h : change f k d = (some u, d')) :
    ∃ file, d.files f = some file ∧ d' = d.called.set f (some (k file)) := by
  obtain ⟨_, _, hc, h⟩ := Code.bind_eq_some.mp h
  obtain ⟨-, rfl⟩ := call_eq_some.mp hc
  obtain ⟨file, d₁, hfile, h⟩ := Code.bind_eq_some.mp h
  obtain ⟨hf, rfl⟩ := Code.expect_eq_some.mp hfile
  cases h
  exact ⟨file, hf, rfl⟩

theorem read_eq_some {bytes : List UInt8} (h : read f d = (some bytes, d')) :
    (∃ mode, d.files f = some ⟨bytes, mode⟩) ∧ d' = d.called := by
  obtain ⟨_, _, hc, h⟩ := Code.bind_eq_some.mp h
  obtain ⟨-, rfl⟩ := call_eq_some.mp hc
  obtain ⟨file, d₁, hfile, h⟩ := Code.bind_eq_some.mp h
  obtain ⟨hf, rfl⟩ := Code.expect_eq_some.mp hfile
  cases h
  exact ⟨⟨file.mode, hf⟩, rfl⟩

theorem newNamedTempFile_eq_some (h : newNamedTempFile d = (some f, d')) :
    f = d.next ∧ d'.next = d.next + 1 ∧
      d'.files = Function.update d.files d.next (some ⟨[], 0o600⟩) := by
  obtain ⟨_, _, hc, h⟩ := Code.bind_eq_some.mp h
  obtain ⟨-, rfl⟩ := call_eq_some.mp hc
  cases h
  exact ⟨rfl, rfl, rfl⟩

theorem newNamedTempFile_eq_none (h : newNamedTempFile d = (none, d')) : d'.files = d.files := by
  have hwithin : Within [] call := within_call
  obtain ⟨-, hfiles⟩ := hwithin d
  rcases hc : call d with ⟨_ | u, d₁⟩
  · rw [newNamedTempFile, Code.bind_none hc] at h
    cases h
    rw [hc] at hfiles
    exact funext fun f => hfiles f List.not_mem_nil
  · rw [newNamedTempFile, Code.bind_some hc] at h
    cases h

theorem owning_eq_some {x : Code Disk α} {a : α} :
    owning f x d = (some a, d') ↔ x d = (some a, d') := by
  unfold owning
  rcases x d with ⟨_ | b, d₁⟩ <;> simp

theorem owning_eq_none {x : Code Disk α} (h : owning f x d = (none, d')) :
    ∃ d₁, x d = (none, d₁) ∧ d' = d₁.set f none := by
  unfold owning at h
  rcases hx : x d with ⟨_ | b, d₁⟩
  · rw [hx] at h
    cases h
    exact ⟨d₁, rfl, rfl⟩
  · rw [hx] at h
    cases h

/-- A temporary file does not outlive a panic of the code that owns it. -/
theorem restores_owning {k : TempFile → Code Disk α} (hk : ∀ f, Restores (f :: fs) (k f)) :
    Restores fs (newNamedTempFile >>= fun f => owning f (k f)) := by
  intro d d' h g hg
  rcases hf : newNamedTempFile d with ⟨_ | f, d₁⟩
  · rw [Code.bind_none hf] at h
    cases h
    exact Or.inl (congrFun (newNamedTempFile_eq_none hf) g)
  · obtain ⟨rfl, hnext, hfiles⟩ := newNamedTempFile_eq_some hf
    rw [Code.bind_some hf] at h
    obtain ⟨d₂, hx, rfl⟩ := owning_eq_none h
    by_cases hne : g = d.next
    · subst hne
      exact Or.inr ⟨le_rfl, set_self _ _ _⟩
    · have := hk _ d₁ d₂ hx g (List.not_mem_cons_of_ne_of_not_mem hne hg)
      rw [hfiles, Function.update_of_ne hne, hnext] at this
      rw [set_ne _ hne]
      exact this.imp_right (And.imp_left fun h => (Nat.le_succ _).trans h)

end Files

variable {C} {ips : List Ipv4Addr} {state : State C} {d d' : Disk}

/-- The certificate for the addresses, its key, and the configuration that trusts it, where anyone
may read them. -/
def Published (ips : List Ipv4Addr) (state : State C) (d : Disk) : Prop :=
  ∃ cert signingKey caDer,
    C.generateSimpleSelfSigned (ips.map ipToString) = some (cert, signingKey) ∧
      C.pemSliceIter (C.pem cert) = some caDer ∧
      d.files state.certFile = some ⟨C.pem cert, 0o644⟩ ∧
      d.files state.keyFile = some ⟨C.serializePem signingKey, 0o644⟩ ∧
      state.clientTlsConfig = C.config caDer

/-- Every file is as it was, or new and removed again. -/
def Restored (d d' : Disk) : Prop :=
  ∀ f, d'.files f = d.files f ∨ d.next ≤ f ∧ d'.files f = none

/-- The files of the actor are new, and the others as they were. -/
structure Adds (state : State C) (d d' : Disk) : Prop where
  certFile : d.next ≤ state.certFile
  keyFile : d.next ≤ state.keyFile
  others : ∀ f, f ≠ state.certFile → f ≠ state.keyFile → d'.files f = d.files f

/-- **`new`** publishes the certificate when it returns. -/
theorem new_some (h : new C ips d = (some state, d')) :
    Published ips state d' ∧ Adds state d d' := by
  obtain ⟨⟨cert, signingKey⟩, _, hc, h⟩ := Code.bind_eq_some.mp h
  obtain ⟨hgen, rfl⟩ := Code.expect_eq_some.mp hc
  obtain ⟨certFile, d₁, hcert, h⟩ := Code.bind_eq_some.mp h
  obtain ⟨rfl, hnext₁, hfiles₁⟩ := newNamedTempFile_eq_some hcert
  obtain ⟨_, d₂, hw, h⟩ := Code.bind_eq_some.mp (owning_eq_some.mp h)
  obtain ⟨file, hfile, rfl⟩ := change_eq_some hw
  rw [hfiles₁, Function.update_self] at hfile
  cases hfile
  obtain ⟨keyFile, d₃, hkey, h⟩ := Code.bind_eq_some.mp h
  obtain ⟨rfl, -, hfiles₃⟩ := newNamedTempFile_eq_some hkey
  have hne : d.next ≠ d.next + 1 := (Nat.succ_ne_self _).symm
  simp only [set_next, called_next, hnext₁] at h hfiles₃
  obtain ⟨_, d₄, hw, h⟩ := Code.bind_eq_some.mp (owning_eq_some.mp h)
  obtain ⟨file, hfile, rfl⟩ := change_eq_some hw
  rw [hfiles₃, Function.update_self] at hfile
  cases hfile
  obtain ⟨_, d₅, hw, h⟩ := Code.bind_eq_some.mp h
  obtain ⟨file, hfile, rfl⟩ := change_eq_some hw
  rw [set_ne _ hne, called_files, hfiles₃, Function.update_of_ne hne, set_self] at hfile
  cases hfile
  obtain ⟨_, d₆, hw, h⟩ := Code.bind_eq_some.mp h
  obtain ⟨file, hfile, rfl⟩ := change_eq_some hw
  rw [set_ne _ hne.symm, called_files, set_self] at hfile
  cases hfile
  obtain ⟨certPem, d₇, hread, h⟩ := Code.bind_eq_some.mp h
  obtain ⟨⟨mode, hmode⟩, rfl⟩ := read_eq_some hread
  rw [set_ne _ hne, called_files, set_self] at hmode
  cases hmode
  obtain ⟨caDer, d₈, hc, h⟩ := Code.bind_eq_some.mp h
  obtain ⟨hder, rfl⟩ := Code.expect_eq_some.mp hc
  cases h
  refine ⟨⟨cert, signingKey, caDer, hgen, hder, ?_, ?_, rfl⟩, ⟨le_rfl, Nat.le_succ _, ?_⟩⟩
  · simp [set_ne _ hne]
  · simp
  · intro f hc hk
    simp only [called_files]
    rw [set_ne _ hk, called_files, set_ne _ hc, called_files, set_ne _ hk, called_files, hfiles₃,
      Function.update_of_ne hk, set_ne _ hc, called_files, hfiles₁, Function.update_of_ne hc]

/-- **`new`** leaves no file when it panics. -/
theorem new_none (h : new C ips d = (none, d')) : Restored d d' := by
  have hnew : Restores [] (new C ips) := by
    refine restores_bind (within_expect _) fun ⟨cert, signingKey⟩ => ?_
    refine restores_owning fun certFile => restores_bind (within_change (by simp)) fun _ => ?_
    refine restores_owning fun keyFile => Within.restores ?_
    refine within_bind (within_change (by simp)) fun _ => ?_
    refine within_bind (within_change (by simp)) fun _ => ?_
    refine within_bind (within_change (by simp)) fun _ => within_bind (within_read _) fun _ => ?_
    exact within_bind (within_expect _) fun _ => within_pure _
  exact fun f => hnew d d' h f List.not_mem_nil

/-! ## What the actor serves -/

section Serving

variable {ι : Type} [DecidableEq ι] {clients : ι → Client Tls (Reply C)} {cap : Nat}
  {t : List (Label ι Tls (Reply C))} {x : Net ι Tls (Reply C) (State C) Disk}

/-- **Every answer is what `new` published**, and the files are there for as long as the actor is,
which is until every client is through; then they are gone. No client fails, whoever is cancelled. -/
theorem tls_serves (hnew : new C ips d = (some state, d'))
    (h : Run (service C) cap (start clients state d') t x) :
    (∀ i, .fail i ∉ t) ∧ (∀ i c, .answer i c ∈ t → c.2 = state.reply c.1) ∧
      (x.actor.isOpen = true → Published ips state x.world) ∧
      (x.actor.isOpen = false → (∀ i, (x.clients i).Finished) ∧ Restored d x.world) := by
  obtain ⟨hpub, hadds⟩ := new_some hnew
  -- no message changes anything
  have hI : Handles (ι := ι) (service C) (fun _ => True) (fun _ s w => s = state ∧ w = d')
      True := by
    rintro done i q heard s w - ⟨rfl, rfl⟩ -
    exact Or.inl ⟨_, _, _, rfl, rfl, rfl⟩
  obtain ⟨hhealthy, hfail, -⟩ := all_served hI ⟨rfl, rfl⟩ h (fun _ _ => trivial) (Or.inl trivial)
  refine ⟨hfail, fun i c hc => ?_, fun ho => ?_, fun ho => ⟨hhealthy.finished ho, ?_⟩⟩
  · obtain ⟨pre, post, rfl⟩ := List.append_of_mem hc
    obtain ⟨s₁, w₁, s₂, w₂, hs, hp⟩ := (sequential h).answers pre i c ⟨post, by simp⟩
    obtain ⟨rfl, -⟩ := serve_invariant (I := fun s w => s = state ∧ w = d')
      (fun m s w s' w' hs hm => by
        obtain ⟨rfl, rfl⟩ := hs
        cases hm
        exact ⟨rfl, rfl⟩) ⟨rfl, rfl⟩ hs
    exact (Prod.mk.inj (Option.some.inj (Prod.mk.inj hp).1)).2.symm
  · obtain ⟨s, hs⟩ := Actor.exists_state ho
    rwa [(hhealthy.state hs).2]
  · obtain ⟨s, w, ⟨rfl, rfl⟩, hw⟩ := hhealthy.closed ho
    have hstop : ((service C).stop s w).2 = (w.set s.keyFile none).set s.certFile none := rfl
    rw [hstop] at hw
    rw [← hw]
    intro f
    by_cases hc : f = s.certFile
    · subst hc
      exact Or.inr ⟨hadds.certFile, set_self _ _ _⟩
    · rw [set_ne _ hc]
      by_cases hk : f = s.keyFile
      · subst hk
        exact Or.inr ⟨hadds.keyFile, set_self _ _ _⟩
      · exact Or.inl (by rw [set_ne _ hk, hadds.others f hc hk])

end Serving

/-- Libraries for which a certificate is the names it is for, and every file can be parsed. -/
def Crypto.plain : Crypto where
  Cert := List Str
  SigningKey := Unit
  CertificateDer := List UInt8
  ClientConfig := List (List UInt8)
  generateSimpleSelfSigned names := some (names, ())
  pem names := names.flatten.map fun c => c.val.toUInt8
  serializePem _ := []
  pemSliceIter bytes := some [bytes]
  config := id

/-- What `new` makes for one address, where every call succeeds. -/
def plainState : State Crypto.plain := ⟨0, 1, [Crypto.plain.pem [ipToString 0x7F000001]]⟩

def plainDisk : Disk := (new Crypto.plain [0x7F000001] { succeeds := fun _ => true }).2

/-- Two clients want the path of the certificate; the first is cancelled while it waits for it. -/
theorem tls_serves_cancelled : ∃ t x, Run (service Crypto.plain) 10
    (start (fun _ : Bool => .call .certPath fun _ => .done) plainState plainDisk) t x ∧
      .cancel false ∈ t ∧ .serve false .certPath ∈ t ∧
      .answer true ⟨.certPath, plainState.certFile⟩ ∈ t ∧ (∀ i, .fail i ∉ t) ∧
      x.actor.isOpen = false ∧ Restored { succeeds := fun _ => true } x.world := by
  have hnew : new Crypto.plain [0x7F000001] { succeeds := fun _ => true } =
      (some plainState, plainDisk) := rfl
  have hgone : ∀ {x : Net Bool Tls (Reply Crypto.plain) (State Crypto.plain) Disk},
      x.clients false = .gone → ¬ x.Awaited (service Crypto.plain) false .certPath := by
    rintro x hx ⟨-, k, hk⟩
    rw [hx] at hk
    cases hk
  have h₀ : Run (service Crypto.plain) 10
    (start (fun _ : Bool => .call .certPath fun _ => .done) plainState plainDisk) [] _ := .refl
  have h₁ := h₀.tail (.ask (i := false) rfl rfl rfl (by decide))
  have h₂ := h₁.tail (.ask (i := true) rfl rfl rfl (by decide))
  have h₃ := h₂.tail (.cancel (i := false) (by rintro (h | h) <;> cases h))
  have h₄ := h₃.tail (.take rfl rfl)
  have h₅ := h₄.tail (.serve rfl (hgone rfl) rfl)
  have h₆ := h₅.tail (.take rfl rfl)
  have h₇ := h₆.tail (.answer rfl rfl rfl rfl)
  have h₈ := h₇.tail (.close rfl rfl (by rintro (_ | _); exacts [Or.inr rfl, Or.inl rfl]) rfl)
  obtain ⟨hfail, -, -, hclosed⟩ := tls_serves hnew h₈
  exact ⟨_, _, h₈, by simp, by simp, by simp [State.reply], hfail, rfl, (hclosed rfl).2⟩

end tls

end E2etest
