import Mathlib.Data.List.Basic
import Mathlib.Data.List.Perm.Basic
import Mathlib.Data.List.Infix

/-!
# Bounded interleavings

`Interleave n rs ws t`: the word `t` is what an observer sees when the words `ws` are taken one
after the other, each is started when fewer than `n` words are under way (`n = 0`: no limit), and
the words under way (`rs` at the outset) advance one letter at a time in any order.

Results:
* `Interleave.perm`: nothing is lost and nothing is made up.
* `Interleave.filter_eq`: letters that only one of the words has come in that word's order.
* `Interleave.snapshot`: after any prefix each word has been read up to some point, and at most
  `n` words have been started and not been read to their end.
-/

namespace Async

variable {A : Type*}

/-- `t` interleaves the words `rs` under way and the words `ws` waiting, at most `n` at once. -/
inductive Interleave (n : Nat) : List (List A) → List (List A) → List A → Prop
  | nil : Interleave n [] [] []
  | start {rs : List (List A)} {l : List A} {ws : List (List A)} {t : List A}
      (hn : n = 0 ∨ rs.length < n) (h : Interleave n (rs ++ [l]) ws t) :
      Interleave n rs (l :: ws) t
  | emit {rs : List (List A)} {a : A} {l : List A} {rs' ws : List (List A)} {t : List A}
      (h : Interleave n (rs ++ l :: rs') ws t) : Interleave n (rs ++ (a :: l) :: rs') ws (a :: t)
  | finish {rs rs' ws : List (List A)} {t : List A} (h : Interleave n (rs ++ rs') ws t) :
      Interleave n (rs ++ [] :: rs') ws t

namespace Interleave

variable {n : Nat} {rs ws : List (List A)} {t : List A}

/-- One word after the other is an interleaving at any limit. -/
theorem flatten : ∀ ws : List (List A), Interleave n [] ws ws.flatten
  | [] => .nil
  | l :: ws => by
    have hread : ∀ l : List A, Interleave n [l] ws (l ++ ws.flatten) := by
      intro l
      induction l with
      | nil => exact show Interleave n ([] ++ [] :: []) ws _ from .finish (flatten ws)
      | cons a l ih => exact show Interleave n ([] ++ (a :: l) :: []) ws _ from .emit ih
    refine .start ?_ (hread l)
    simp only [List.length_nil]
    omega

/-- **Nothing is lost and nothing is made up.** -/
theorem perm (h : Interleave n rs ws t) : t.Perm (rs ++ ws).flatten := by
  induction h with
  | nil => simp
  | start _ _ ih => simpa using ih
  | @emit rs a l rs' ws t _ ih =>
    have : (rs ++ (a :: l) :: rs' ++ ws).flatten.Perm (a :: (rs ++ l :: rs' ++ ws).flatten) := by
      simp
    exact (ih.cons a).trans this.symm
  | finish _ ih => simpa using ih

/-- Every word is read in its order. -/
theorem sublist (h : Interleave n rs ws t) : ∀ l ∈ rs ++ ws, l.Sublist t := by
  induction h with
  | nil => simp
  | start _ _ ih => simpa using ih
  | @emit rs a l rs' ws t _ ih =>
    intro w hw
    simp only [List.append_assoc, List.cons_append, List.mem_append, List.mem_cons] at hw ih
    rcases hw with hw | rfl | hw | hw
    · exact (ih w (Or.inl hw)).cons a
    · exact (ih l (Or.inr (Or.inl rfl))).cons_cons a
    · exact (ih w (Or.inr (Or.inr (Or.inl hw)))).cons a
    · exact (ih w (Or.inr (Or.inr (Or.inr hw)))).cons a
  | finish _ ih =>
    intro w hw
    simp only [List.append_assoc, List.cons_append, List.mem_append, List.mem_cons] at hw ih
    rcases hw with hw | rfl | hw | hw
    · exact ih w (Or.inl hw)
    · exact List.nil_sublist _
    · exact ih w (Or.inr (Or.inl hw))
    · exact ih w (Or.inr (Or.inr hw))

theorem mem_iff (h : Interleave n rs ws t) {a : A} : a ∈ t ↔ ∃ l ∈ rs ++ ws, a ∈ l := by
  rw [h.perm.mem_iff, List.mem_flatten]

/-- **Letters that only one of the words has come in that word's order.** -/
theorem filter_eq (h : Interleave n [] ws t) (p : A → Bool) {before after : List (List A)}
    {l : List A} (hws : ws = before ++ l :: after) (hb : ∀ w ∈ before, w.filter p = [])
    (ha : ∀ w ∈ after, w.filter p = []) : t.filter p = l.filter p := by
  have hflat : ∀ L : List (List A), (∀ w ∈ L, w.filter p = []) → L.flatten.filter p = [] := by
    intro L hL
    rw [List.filter_flatten, List.flatten_eq_nil_iff]
    intro w hw
    obtain ⟨v, hv, rfl⟩ := List.mem_map.mp hw
    exact hL v hv
  have hperm : (t.filter p).Perm (l.filter p) := by
    have := h.perm.filter p
    simpa [hws, List.filter_append, hflat _ hb, hflat _ ha] using this
  have hsub : (l.filter p).Sublist (t.filter p) :=
    (h.sublist l (by simp [hws])).filter p
  exact (hsub.eq_of_length hperm.length_eq.symm).symm

/-! ### What has been read at a prefix -/

/-- A word split in what has been read and what is left. -/
abbrev Progress (A : Type*) := List A × List A

/-- A word that has been started and not been read to its end. -/
def underway (q : Progress A) : Bool := !q.1.isEmpty && !q.2.isEmpty

/-- A word that has not been read to its end. -/
def unread (q : Progress A) : Bool := !q.2.isEmpty

theorem countP_underway_le (qs : List (Progress A)) : qs.countP underway ≤ qs.countP unread :=
  List.countP_mono_left fun q _ h => by
    simp only [underway, Bool.and_eq_true] at h
    exact h.2

theorem snapshot_aux (h : Interleave n rs ws t) (hn : n ≠ 0) (hrs : rs.length ≤ n) :
    ∀ s s' : List A, t = s ++ s' → ∃ qr qw : List (Progress A),
      qr.map (fun q => q.1 ++ q.2) = rs ∧ qw.map (fun q => q.1 ++ q.2) = ws ∧
      s.Perm ((qr ++ qw).map Prod.fst).flatten ∧ qr.countP unread + qw.countP underway ≤ n := by
  induction h with
  | nil =>
    intro s s' hs
    obtain ⟨rfl, rfl⟩ := List.append_eq_nil_iff.mp hs.symm
    exact ⟨[], [], rfl, rfl, by simp, by simp⟩
  | @start rs l ws t hlim _ ih =>
    intro s s' hs
    have hlen : (rs ++ [l]).length ≤ n := by
      rcases hlim with h0 | h0
      · exact absurd h0 hn
      · simpa [Nat.succ_le_iff] using h0
    obtain ⟨qr, qw, hqr, hqw, hp, hc⟩ := ih hlen s s' hs
    obtain ⟨qr', q, rfl, hqr', hq⟩ := List.map_eq_append_iff.mp hqr
    obtain ⟨q, _, rfl, rfl, hnil⟩ := List.map_eq_cons_iff.mp hq
    obtain rfl := List.map_eq_nil_iff.mp hnil
    refine ⟨qr', q :: qw, hqr', by simp [hqw], by simpa using hp, ?_⟩
    have h1 := countP_underway_le [q]
    simp only [List.countP_append, List.countP_cons, List.countP_nil] at hc h1 ⊢
    omega
  | @emit rs a l rs' ws t _ ih =>
    intro s s' hs
    cases s with
    | nil =>
      refine ⟨(rs ++ (a :: l) :: rs').map fun w => ([], w), ws.map fun w => ([], w), ?_, ?_, ?_, ?_⟩
      · simp [Function.comp_def]
      · simp [Function.comp_def]
      · simp [Function.comp_def]
      · have h1 : ((rs ++ (a :: l) :: rs').map fun w => (([], w) : Progress A)).countP unread
            ≤ (rs ++ (a :: l) :: rs').length := by
          simpa using List.countP_le_length (p := unread)
            (l := (rs ++ (a :: l) :: rs').map fun w => (([], w) : Progress A))
        have h2 : (ws.map fun w => (([], w) : Progress A)).countP underway = 0 := by
          simp [List.countP_eq_zero, underway]
        omega
    | cons b s =>
      obtain ⟨rfl, hs'⟩ := List.cons.inj hs
      have hlen : (rs ++ l :: rs').length ≤ n := by simpa using hrs
      obtain ⟨qr, qw, hqr, hqw, hp, hc⟩ := ih hlen s s' hs'
      obtain ⟨q1, q2, rfl, h1, h2⟩ := List.map_eq_append_iff.mp hqr
      obtain ⟨q, q2, rfl, hq, h2⟩ := List.map_eq_cons_iff.mp h2
      refine ⟨q1 ++ (a :: q.1, q.2) :: q2, qw, by simp [h1, hq, h2], hqw, ?_, ?_⟩
      · have := hp.cons a
        refine this.trans ?_
        simpa using List.perm_middle.symm
      · simpa [List.countP_append, List.countP_cons, unread] using hc
  | @finish rs rs' ws t _ ih =>
    intro s s' hs
    have hlen : (rs ++ rs').length ≤ n := by
      simp only [List.length_append, List.length_cons] at hrs ⊢
      omega
    obtain ⟨qr, qw, hqr, hqw, hp, hc⟩ := ih hlen s s' hs
    obtain ⟨q1, q2, rfl, h1, h2⟩ := List.map_eq_append_iff.mp hqr
    refine ⟨q1 ++ ([], []) :: q2, qw, by simp [h1, h2], hqw, by simpa using hp, ?_⟩
    simpa [List.countP_append, List.countP_cons, unread] using hc

/-- **After any prefix** each word has been read up to some point, and at most `n` words have been
started and not been read to their end. -/
theorem snapshot (h : Interleave n [] ws t) (hn : n ≠ 0) {s s' : List A} (hs : t = s ++ s') :
    ∃ qs : List (Progress A), qs.map (fun q => q.1 ++ q.2) = ws ∧
      s.Perm (qs.map Prod.fst).flatten ∧ qs.countP underway ≤ n := by
  obtain ⟨qr, qw, hqr, hqw, hp, hc⟩ := snapshot_aux h hn (Nat.zero_le n) s s' hs
  obtain rfl := List.map_eq_nil_iff.mp hqr
  exact ⟨qw, hqw, by simpa using hp, by simpa using hc⟩

end Interleave

end Async
