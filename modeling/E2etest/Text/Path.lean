import Mathlib.Data.List.Basic
import Mathlib.Data.List.Infix

/-!
# Names joined by `::`

Strings are lists of characters. `join`, `split` and `rsplitOnce` are the library functions of
these names at the separator `::`: `split` cuts at the leftmost matches, `rsplitOnce` at the
rightmost one.

A name free of `:` can be read back from a joined path: `split_join`, `rsplitOnce_concat`. A path
is then equal to, or starts with another one followed by `::`, exactly when its list of names has
the other's as a prefix (`under_iff_prefix`). `NamePath` is such a path as its list of names, ordered
by prefix.
-/

namespace Text

/-- A string, as its characters. -/
abbrev Str := List Char

/-- The separator `::`. -/
def sep : Str := [':', ':']

/-- `join("::")`. -/
def join : List Str → Str
  | [] => []
  | [n] => n
  | n :: m :: ns => n ++ sep ++ join (m :: ns)

/-- `split("::")`. -/
def split : Str → List Str
  | [] => [[]]
  | ':' :: ':' :: s => [] :: split s
  | c :: s =>
    match split s with
    | [] => [[c]]
    | n :: ns => (c :: n) :: ns

/-- `rsplit_once("::")`. -/
def rsplitOnce : Str → Option (Str × Str)
  | [] => none
  | c :: s =>
    match rsplitOnce s with
    | some (a, b) => some (c :: a, b)
    | none => if sep <+: c :: s then some ([], (c :: s).drop 2) else none

/-- `contains`. -/
def contains (s pat : Str) : Bool := decide (pat <:+: s)

/-- `starts_with`. -/
def startsWith (s pat : Str) : Bool := decide (pat <+: s)

/-- A name that holds no `:`. -/
def ColonFree (n : Str) : Prop := ':' ∉ n

instance (n : Str) : Decidable (ColonFree n) := inferInstanceAs (Decidable (':' ∉ n))

/-! ## Joining -/

@[simp] theorem join_nil : join [] = [] := rfl

@[simp] theorem join_singleton (n : Str) : join [n] = n := rfl

theorem join_cons {ns : List Str} (n : Str) (h : ns ≠ []) : join (n :: ns) = n ++ sep ++ join ns := by
  cases ns with
  | nil => exact absurd rfl h
  | cons m ns => rfl

theorem join_append {ns ms : List Str} (hn : ns ≠ []) (hm : ms ≠ []) :
    join (ns ++ ms) = join ns ++ sep ++ join ms := by
  induction ns with
  | nil => exact absurd rfl hn
  | cons n ns ih =>
    cases ns with
    | nil => rw [List.singleton_append, join_cons n hm, join_singleton]
    | cons m ns =>
      rw [List.cons_append, join_cons n (by simp), ih (by simp), join_cons n (by simp)]
      simp only [List.append_assoc]

theorem join_concat {ns : List Str} (h : ns ≠ []) (n : Str) :
    join (ns ++ [n]) = join ns ++ sep ++ n := by
  rw [join_append h (by simp), join_singleton]

/-! ## Splitting -/

theorem split_ne_nil (s : Str) : split s ≠ [] := by
  fun_induction split s <;> simp_all

theorem split_cons {c : Char} (hc : c ≠ ':') (s : Str) :
    ∃ n ns, split s = n :: ns ∧ split (c :: s) = (c :: n) :: ns := by
  obtain ⟨n, ns, hs⟩ := List.exists_cons_of_ne_nil (split_ne_nil s)
  refine ⟨n, ns, hs, ?_⟩
  rw [split, hs]
  rintro s' h rfl
  exact hc h

theorem split_append_sep {n : Str} (h : ColonFree n) (s : Str) :
    split (n ++ sep ++ s) = n :: split s := by
  induction n with
  | nil => rfl
  | cons c n ih =>
    simp only [ColonFree, List.mem_cons, not_or] at h
    obtain ⟨m, ms, h₁, h₂⟩ := split_cons (Ne.symm h.1) (n ++ sep ++ s)
    rw [ih h.2] at h₁
    obtain ⟨rfl, rfl⟩ := List.cons.inj h₁
    exact h₂

theorem split_of_colonFree {n : Str} (h : ColonFree n) : split n = [n] := by
  induction n with
  | nil => rfl
  | cons c n ih =>
    simp only [ColonFree, List.mem_cons, not_or] at h
    obtain ⟨m, ms, h₁, h₂⟩ := split_cons (Ne.symm h.1) n
    rw [ih h.2] at h₁
    obtain ⟨rfl, rfl⟩ := List.cons.inj h₁
    exact h₂

/-- The names before a `::` are read back whatever follows it. -/
theorem split_join_sep {ns : List Str} (hne : ns ≠ []) (h : ∀ n ∈ ns, ColonFree n) (s : Str) :
    split (join ns ++ sep ++ s) = ns ++ split s := by
  induction ns with
  | nil => exact absurd rfl hne
  | cons n ns ih =>
    have hn := h n List.mem_cons_self
    cases ns with
    | nil => exact split_append_sep hn s
    | cons m ns =>
      have := ih (by simp) fun k hk => h k (List.mem_cons_of_mem n hk)
      rw [join_cons n (by simp)]
      simp only [List.append_assoc] at this ⊢
      rw [← List.append_assoc, split_append_sep hn, this]
      rfl

/-- **A joined path is read back.** -/
theorem split_join {ns : List Str} (hne : ns ≠ []) (h : ∀ n ∈ ns, ColonFree n) :
    split (join ns) = ns := by
  obtain rfl | ⟨ms, n, rfl⟩ := ns.eq_nil_or_concat'
  · exact absurd rfl hne
  · have hn := h n (by simp)
    by_cases hms : ms = []
    · subst hms
      exact split_of_colonFree hn
    · rw [join_concat hms, split_join_sep hms fun k hk => h k (List.mem_append_left _ hk),
        split_of_colonFree hn]

theorem join_injective {ns ms : List Str} (hn : ns ≠ []) (hm : ms ≠ [])
    (hcn : ∀ n ∈ ns, ColonFree n) (hcm : ∀ n ∈ ms, ColonFree n) (h : join ns = join ms) :
    ns = ms := by
  rw [← split_join hn hcn, h, split_join hm hcm]

/-! ## Cutting at the last separator -/

theorem rsplitOnce_of_colonFree {n : Str} (h : ColonFree n) : rsplitOnce n = none := by
  induction n with
  | nil => rfl
  | cons c n ih =>
    simp only [ColonFree, List.mem_cons, not_or] at h
    unfold rsplitOnce
    rw [ih h.2]
    simp [sep, List.cons_prefix_cons, h.1]

theorem rsplitOnce_sep {n : Str} (h : ColonFree n) : rsplitOnce (sep ++ n) = some ([], n) := by
  have h₁ : rsplitOnce (':' :: n) = none := by
    unfold rsplitOnce
    rw [rsplitOnce_of_colonFree h]
    cases n with
    | nil => simp [sep, List.cons_prefix_cons]
    | cons c n =>
      simp only [ColonFree, List.mem_cons, not_or] at h
      simp [sep, List.cons_prefix_cons, h.1]
  change rsplitOnce (':' :: ':' :: n) = _
  unfold rsplitOnce
  rw [h₁]
  simp [sep, List.cons_prefix_cons]

/-- **The last name is cut off**, whatever stands before it. -/
theorem rsplitOnce_concat {n : Str} (h : ColonFree n) (s : Str) :
    rsplitOnce (s ++ sep ++ n) = some (s, n) := by
  induction s with
  | nil => exact rsplitOnce_sep h
  | cons c s ih =>
    rw [List.cons_append, List.cons_append, rsplitOnce, ih]

/-! ## Paths below a path -/

/-- `s` is the path `p` or starts with `p` followed by `::`. -/
def Under (p s : Str) : Prop := s = p ∨ p ++ sep <+: s

instance (p s : Str) : Decidable (Under p s) := inferInstanceAs (Decidable (_ ∨ _))

theorem under_of_prefix {ns ms : List Str} (hn : ns ≠ []) (h : ns <+: ms) :
    Under (join ns) (join ms) := by
  obtain ⟨ks, rfl⟩ := h
  cases ks with
  | nil => exact Or.inl (by simp)
  | cons k ks => exact Or.inr ⟨join (k :: ks), (join_append hn (by simp)).symm⟩

/-- **A path lies under another exactly when its names have the other's as a prefix.** -/
theorem under_iff_prefix {ns ms : List Str} (hn : ns ≠ []) (hm : ms ≠ [])
    (hcn : ∀ n ∈ ns, ColonFree n) (hcm : ∀ n ∈ ms, ColonFree n) :
    Under (join ns) (join ms) ↔ ns <+: ms := by
  constructor
  · rintro (h | ⟨s, hs⟩)
    · rw [join_injective hm hn hcm hcn h]
    · rw [← split_join hm hcm, ← hs, split_join_sep hn hcn]
      exact List.prefix_append _ _
  · exact under_of_prefix hn

/-! ## Paths as lists of names -/

/-- A path: at least one name, none of which holds a `:`. -/
@[ext]
structure NamePath where
  names : List Str
  ne_nil : names ≠ []
  colonFree : ∀ n ∈ names, ColonFree n
  deriving DecidableEq

namespace NamePath

/-- The joined path. -/
def path (p : NamePath) : Str := join p.names

/-- A path is below those its names start with. -/
instance : PartialOrder NamePath where
  le p q := p.names <+: q.names
  le_refl _ := List.prefix_rfl
  le_trans _ _ _ h h' := h.trans h'
  le_antisymm _ _ h h' := NamePath.ext (h.eq_of_length_le h'.length_le)

instance (p q : NamePath) : Decidable (p ≤ q) := inferInstanceAs (Decidable (p.names <+: q.names))

variable {p q : NamePath}

theorem le_iff : p ≤ q ↔ p.names <+: q.names := Iff.rfl

theorem path_injective : Function.Injective path := fun p q h =>
  NamePath.ext (join_injective p.ne_nil q.ne_nil p.colonFree q.colonFree h)

/-- **The order of paths is read off the strings.** -/
theorem under_iff_le : Under p.path q.path ↔ p ≤ q :=
  under_iff_prefix p.ne_nil q.ne_nil p.colonFree q.colonFree

/-- What is below a sibling is not below the path. -/
theorem not_le_of_sibling {ns : List Str} {n m : Str} (hne : n ≠ m) (hp : p.names = ns ++ [n])
    (hq : ns ++ [m] <+: q.names) : ¬ p ≤ q := by
  intro h
  rw [le_iff, hp] at h
  have heq := (List.prefix_of_prefix_length_le h hq (by simp)).eq_of_length (by simp)
  exact hne (List.singleton_inj.mp (List.append_cancel_left heq))

end NamePath

end Text
