import Mathlib.Data.List.Dedup
import Mathlib.Data.List.Forall2
import Mathlib.Data.List.Perm.Subperm
import Mathlib.Data.Multiset.Bind
import Mathlib.Logic.Relation

/-!
# Trees from pointers

The nodes of a forest are given with pointers, down to their children and up to their parents.
`unfold` follows the pointers down from a node and makes a tree of any kind; nothing keeps the
pointers from going round in a circle.

* `Forest.isSome_unfold_iff`: following them ends, unless the node is below itself; as many levels as
  there are nodes will do.
* `ways` unfolds to the list of nodes reached, each with those above it. `Forest.climb_iff`: climbing up
  from a node finds the same way.
* `Forest.ways_perm`: so the tree has each node that is below the root once, whatever the order of the
  children. `hung_perm`: and so with what hangs on the nodes, each on one of them.
-/

namespace Trees

open Relation

variable {ι α β : Type*}

/-! ## Following pointers down -/

/-- The tree below a node, put together by `f`, when it has fewer levels than that. -/
def unfold (children : ι → List ι) (f : ι → List α → α) : Nat → ι → Option α
  | 0, _ => none
  | n + 1, i => ((children i).mapM (unfold children f n)).map (f i)

/-- One node is a child of the other. -/
def Child (children : ι → List ι) (i j : ι) : Prop := j ∈ children i

theorem mapM_eq_some {g : ι → Option α} {is : List ι} {as : List α} :
    is.mapM g = some as ↔ List.Forall₂ (fun i a => g i = some a) is as := by
  induction is generalizing as with
  | nil => simp [eq_comm]
  | cons i is ih =>
    rw [List.mapM_cons, List.forall₂_cons_left_iff]
    simp only [Option.bind_eq_bind, Option.bind_eq_some_iff, ← ih, Option.pure_def,
      Option.some.injEq]
    refine ⟨fun h => ?_, fun h => ?_⟩
    · obtain ⟨a, ha, as', has, rfl⟩ := h
      exact ⟨a, as', ha, has, rfl⟩
    · obtain ⟨a, as', ha, has, rfl⟩ := h
      exact ⟨a, ha, as', has, rfl⟩

theorem isSome_mapM {g : ι → Option α} {is : List ι} :
    (is.mapM g).isSome = true ↔ ∀ i ∈ is, (g i).isSome = true := by
  induction is with
  | nil => simp
  | cons i is ih =>
    rw [List.mapM_cons, List.forall_mem_cons, ← ih]
    cases g i <;> cases is.mapM g <;> simp

theorem map_mapM {g : ι → Option α} {φ : α → β} {is : List ι} :
    (is.mapM g).map (List.map φ) = is.mapM fun i => (g i).map φ := by
  induction is with
  | nil => simp
  | cons i is ih =>
    rw [List.mapM_cons, List.mapM_cons, ← ih]
    cases g i <;> cases is.mapM g <;> rfl

theorem mapM_congr {g g' : ι → Option α} {is : List ι} (h : ∀ i ∈ is, g i = g' i) :
    is.mapM g = is.mapM g' := by
  induction is with
  | nil => rfl
  | cons i is ih =>
    rw [List.mapM_cons, List.mapM_cons, h i List.mem_cons_self,
      ih fun j hj => h j (List.mem_cons_of_mem i hj)]

section Unfold

variable {children : ι → List ι} {f : ι → List α → α} {n m : Nat} {i : ι} {a : α}

theorem unfold_succ_eq_some : unfold children f (n + 1) i = some a ↔
    ∃ as, List.Forall₂ (fun j b => unfold children f n j = some b) (children i) as ∧ f i as = a := by
  rw [unfold, Option.map_eq_some_iff]
  simp only [mapM_eq_some]

theorem isSome_unfold_succ : (unfold children f (n + 1) i).isSome = true ↔
    ∀ j ∈ children i, (unfold children f n j).isSome = true := by
  rw [unfold, Option.isSome_map, isSome_mapM]

/-- What is read off the trees can be read off the pointers. -/
theorem map_unfold {φ : α → β} {f' : ι → List β → β}
    (h : ∀ i as, φ (f i as) = f' i (as.map φ)) :
    ∀ n i, (unfold children f n i).map φ = unfold children f' n i
  | 0, _ => rfl
  | n + 1, i => by
    have hih : (fun j => (unfold children f n j).map φ) = unfold children f' n :=
      funext fun j => map_unfold h n j
    rw [unfold, unfold, ← hih, ← map_mapM, Option.map_map, Option.map_map]
    congr 1
    funext as
    exact h i as

/-- Only the pointers that are followed count. -/
theorem unfold_congr {children' : ι → List ι} {f' : ι → List α → α} {P : ι → Prop}
    (hclosed : ∀ i, P i → ∀ j ∈ children i, P j) (hchildren : ∀ i, P i → children i = children' i)
    (hf : ∀ i, P i → f i = f' i) (n : Nat) :
    ∀ i, P i → unfold children f n i = unfold children' f' n i := by
  induction n with
  | zero => exact fun _ _ => rfl
  | succ n ih =>
    intro i hi
    rw [unfold, unfold, mapM_congr fun j hj => ih j (hclosed i hi j hj), hchildren i hi, hf i hi]

/-- A node below itself has no tree. -/
theorem unfold_eq_none (h : TransGen (Child children) i i) (n : Nat) :
    unfold children f n i = none := by
  -- some way down from a node below itself goes on for ever
  have hall : ∀ n i, TransGen (Child children) i i → unfold children f n i = none := by
    intro n
    induction n with
    | zero => exact fun _ _ => rfl
    | succ n ih =>
      intro i h
      obtain ⟨j, hij, hji⟩ := TransGen.head'_iff.mp h
      have hj : unfold children f n j = none := ih j (TransGen.tail' hji hij)
      rw [← Option.not_isSome_iff_eq_none, isSome_unfold_succ]
      intro hsome
      have := hsome j hij
      rw [hj] at this
      cases this
  exact hall n i h

end Unfold

/-! ## Ways -/

/-- A way from `i` to a node, by way of the nodes above it. -/
inductive IsWay (children : ι → List ι) (i : ι) : List ι → ι → Prop
  | here : IsWay children i [] i
  | down {above : List ι} {a j : ι} (h : IsWay children i above a) (hj : j ∈ children a) :
      IsWay children i (above ++ [a]) j

/-- The nodes of a tree, each with those above it. -/
abbrev Way (ι : Type*) := List ι × ι

/-- The ways in a tree. -/
def joinWays (i : ι) (wss : List (List (Way ι))) : List (Way ι) :=
  wss.flatten.map (fun w => (i :: w.1, w.2)) ++ [([], i)]

/-- The ways from a node. -/
def ways (children : ι → List ι) : Nat → ι → Option (List (Way ι)) := unfold children joinWays

section Ways

variable {children : ι → List ι} {i j k : ι} {above : List ι}

theorem IsWay.reflTransGen (h : IsWay children i above j) :
    ReflTransGen (Child children) i j := by
  induction h with
  | here => exact .refl
  | down _ hj ih => exact ih.tail hj

theorem exists_isWay (h : ReflTransGen (Child children) i j) :
    ∃ above, IsWay children i above j := by
  induction h with
  | refl => exact ⟨[], .here⟩
  | tail _ hj ih =>
    obtain ⟨above, hway⟩ := ih
    exact ⟨_, hway.down hj⟩

theorem IsWay.cons (hj : j ∈ children i) (h : IsWay children j above k) :
    IsWay children i (i :: above) k := by
  induction h with
  | here =>
    rw [← List.nil_append [i]]
    exact .down .here hj
  | down _ hk ih => exact ih.down hk

/-- The first step of a way. -/
theorem isWay_iff : IsWay children i above k ↔ above = [] ∧ k = i ∨
    ∃ j rest, above = i :: rest ∧ j ∈ children i ∧ IsWay children j rest k := by
  constructor
  · intro h
    induction h with
    | here => exact Or.inl ⟨rfl, rfl⟩
    | @down above a k _ hk ih =>
      rcases ih with ⟨rfl, rfl⟩ | ⟨j, rest, rfl, hj, hway⟩
      · exact Or.inr ⟨k, [], rfl, hk, .here⟩
      · exact Or.inr ⟨j, rest ++ [a], rfl, hj, hway.down hk⟩
  · rintro (⟨rfl, rfl⟩ | ⟨j, rest, rfl, hj, hway⟩)
    · exact .here
    · exact hway.cons hj

theorem mem_flatten {n : Nat}
    (h : ∀ {i ws}, ways children n i = some ws → ∀ w : Way ι, w ∈ ws ↔ IsWay children i w.1 w.2)
    {js : List ι} {wss : List (List (Way ι))}
    (hall : List.Forall₂ (fun j b => ways children n j = some b) js wss) (w : Way ι) :
    w ∈ wss.flatten ↔ ∃ j ∈ js, IsWay children j w.1 w.2 := by
  induction hall with
  | nil => simp
  | cons hj _ ih => rw [List.flatten_cons, List.mem_append, ih, h hj, List.exists_mem_cons_iff]

/-- **The ways in a tree are all ways from its root.** -/
theorem mem_ways {n : Nat} {ws : List (Way ι)} (h : ways children n i = some ws) (w : Way ι) :
    w ∈ ws ↔ IsWay children i w.1 w.2 := by
  induction n generalizing i ws w with
  | zero => cases h
  | succ n ih =>
    obtain ⟨wss, hall, rfl⟩ := unfold_succ_eq_some.mp h
    rw [joinWays, List.mem_append, List.mem_map, List.mem_singleton, isWay_iff, or_comm]
    have hin := mem_flatten (fun hj v => ih hj v) hall
    obtain ⟨above, k⟩ := w
    refine or_congr (by simp) ⟨?_, ?_⟩
    · rintro ⟨v, hv, he⟩
      obtain ⟨rfl, rfl⟩ := Prod.mk.inj he
      obtain ⟨j, hj, hway⟩ := (hin v).mp hv
      exact ⟨j, v.1, rfl, hj, hway⟩
    · rintro ⟨j, rest, rfl, hj, hway⟩
      exact ⟨(rest, k), (hin _).mpr ⟨j, hj, hway⟩, rfl⟩

/-- The nodes above tell where a way begins. -/
theorem IsWay.root_unique (h : IsWay children i above k) (h' : IsWay children j above k) :
    i = j := by
  rcases isWay_iff.mp h with ⟨rfl, rfl⟩ | ⟨l, rest, rfl, -, -⟩
  · rcases isWay_iff.mp h' with ⟨-, hkj⟩ | ⟨_, _, he, -, -⟩
    · exact hkj
    · cases he
  · rcases isWay_iff.mp h' with ⟨he, -⟩ | ⟨_, _, he, -, -⟩
    · cases he
    · exact (List.cons.inj he).1

/-- No way is listed twice, where no node has a child twice. -/
theorem nodup_ways (hn : ∀ i, (children i).Nodup) {n : Nat} {ws : List (Way ι)}
    (h : ways children n i = some ws) : ws.Nodup := by
  induction n generalizing i ws with
  | zero => cases h
  | succ n ih =>
    obtain ⟨wss, hall, rfl⟩ := unfold_succ_eq_some.mp h
    have hflat : ∀ {js : List ι} {wss : List (List (Way ι))}, js.Nodup →
        List.Forall₂ (fun j b => ways children n j = some b) js wss → wss.flatten.Nodup := by
      intro js wss hjs hall
      induction hall with
      | nil => exact .nil
      | @cons j ws' js wss hj hall ihs =>
        rw [List.nodup_cons] at hjs
        rw [List.flatten_cons, List.nodup_append']
        refine ⟨ih hj, ihs hjs.2, fun v hv hv' => hjs.1 ?_⟩
        obtain ⟨k, hk, hkv⟩ := (mem_flatten mem_ways hall v).mp hv'
        exact ((mem_ways hj v).mp hv).root_unique hkv ▸ hk
    rw [joinWays, List.nodup_append']
    refine ⟨(hflat (hn i) hall).map fun v w he => ?_, by simp, fun v hv hv' => ?_⟩
    · obtain ⟨h₁, h₂⟩ := Prod.mk.inj he
      exact Prod.ext (List.cons.inj h₁).2 h₂
    · obtain ⟨w, -, rfl⟩ := List.mem_map.mp hv
      rw [List.mem_singleton] at hv'
      cases (Prod.mk.inj hv').1

end Ways

/-! ## Climbing up -/

section Climb

variable [DecidableEq ι] {parent : ι → Option ι} {i j : ι}

/-- The nodes above a node, up to the root. -/
def climb (parent : ι → Option ι) (root : ι) : Nat → ι → Option (List ι)
  | 0, _ => none
  | n + 1, j => if j = root then some [] else do
    let i ← parent j
    let above ← climb parent root n i
    return above ++ [i]

theorem climb_succ_of_ne {n : Nat} (h : j ≠ i) : climb parent i (n + 1) j =
    (parent j).bind fun k => (climb parent i n k).map (· ++ [k]) := by
  rw [climb, if_neg h, Option.bind_eq_bind]
  refine Option.bind_congr fun k _ => ?_
  cases climb parent i n k <;> rfl

end Climb

/-! ## Forests -/

/-- No node of `L` has two parents, and the pointers up are those down. -/
structure Forest (children : ι → List ι) (parent : ι → Option ι) (L : List ι) : Prop where
  closed : ∀ i, ∀ j ∈ children i, j ∈ L
  nodup : ∀ i, (children i).Nodup
  parent_iff : ∀ j ∈ L, ∀ i, parent j = some i ↔ i ∈ L ∧ j ∈ children i

namespace Forest

variable {children : ι → List ι} {parent : ι → Option ι} {L : List ι} {f : ι → List α → α}
  {i j k : ι} {above above' : List ι}

theorem mem_of_way (hF : Forest children parent L) (hi : i ∈ L) (h : IsWay children i above j) :
    j ∈ L ∧ ∀ a ∈ above, a ∈ L := by
  induction h with
  | here => exact ⟨hi, by simp⟩
  | down _ hj ih =>
    refine ⟨hF.closed _ _ hj, fun a ha => ?_⟩
    rcases List.mem_append.mp ha with ha | ha
    · exact ih.2 a ha
    · exact List.mem_singleton.mp ha ▸ ih.1

theorem parent_unique (hF : Forest children parent L) (hi : i ∈ L) (hk : k ∈ L)
    (hij : j ∈ children i) (hkj : j ∈ children k) : i = k := by
  have h := (hF.parent_iff j (hF.closed i j hij) i).mpr ⟨hi, hij⟩
  rw [(hF.parent_iff j (hF.closed i j hij) k).mpr ⟨hk, hkj⟩] at h
  exact (Option.some.inj h).symm

theorem mem_of_reflTransGen (hF : Forest children parent L) (hi : i ∈ L)
    (h : ReflTransGen (Child children) i j) : j ∈ L := by
  obtain ⟨above, hway⟩ := exists_isWay h
  exact (hF.mem_of_way hi hway).1

/-- A circle that can be reached goes through the root: the way up from a circle stays in it. -/
theorem root_of_circle (hF : Forest children parent L) (hi : i ∈ L)
    (h : ReflTransGen (Child children) i j) (hj : TransGen (Child children) j j) :
    TransGen (Child children) i i := by
  induction h with
  | refl => exact hj
  | @tail k j hik hkj ih =>
    refine ih ?_
    obtain ⟨l, hjl, hlj⟩ := TransGen.tail'_iff.mp hj
    have hk := hF.mem_of_reflTransGen hi hik
    have hl := hF.mem_of_reflTransGen (hF.closed k j hkj) hjl
    obtain rfl := hF.parent_unique hk hl hkj hlj
    exact TransGen.head' hkj hjl

/-- A way meets no node twice, unless the root is below itself. -/
theorem nodup_way (hF : Forest children parent L) (hi : i ∈ L)
    (hno : ¬ TransGen (Child children) i i) (h : IsWay children i above j) :
    (above ++ [j]).Nodup := by
  have hbelow : ∀ {above j}, IsWay children i above j → ∀ a ∈ above,
      ReflTransGen (Child children) i a ∧ TransGen (Child children) a j := by
    intro above j h
    induction h with
    | here => simp
    | @down above k j h hj ih =>
      intro a ha
      rcases List.mem_append.mp ha with ha | ha
      · exact ⟨(ih a ha).1, (ih a ha).2.tail hj⟩
      · obtain rfl := List.mem_singleton.mp ha
        exact ⟨h.reflTransGen, .single hj⟩
  induction h with
  | here => simp
  | @down above k j h hj ih =>
    refine List.nodup_append'.mpr ⟨ih, by simp, fun a ha hja => ?_⟩
    obtain rfl := List.mem_singleton.mp hja
    obtain ⟨hia, haa⟩ := hbelow (h.down hj) a ha
    exact hno (hF.root_of_circle hi hia haa)

theorem length_way (hF : Forest children parent L) (hi : i ∈ L)
    (hno : ¬ TransGen (Child children) i i) (h : IsWay children i above j) :
    above.length < L.length := by
  obtain ⟨hj, habove⟩ := hF.mem_of_way hi h
  have hsub : above ++ [j] ⊆ L := fun a ha => (List.mem_append.mp ha).elim (habove a) fun ha =>
    List.mem_singleton.mp ha ▸ hj
  have hle := ((hF.nodup_way hi hno h).subperm hsub).length_le
  rw [List.length_append, List.length_singleton] at hle
  omega

/-- **Following the pointers ends** unless the node is below itself; as many levels as there are
nodes will do. -/
theorem isSome_unfold_iff (hF : Forest children parent L) (hi : i ∈ L) :
    (unfold children f L.length i).isSome = true ↔ ¬ TransGen (Child children) i i := by
  refine ⟨fun h hcircle => ?_, fun hno => ?_⟩
  · rw [unfold_eq_none hcircle] at h
    cases h
  · -- as many levels as a way from the root can still go down
    have hall : ∀ n above j, IsWay children i above j → L.length ≤ above.length + n →
        (unfold children f n j).isSome = true := by
      intro n
      induction n with
      | zero =>
        intro above j h hle
        have := hF.length_way hi hno h
        omega
      | succ n ih =>
        intro above j h hle
        refine isSome_unfold_succ.mpr fun k hk => ih _ k (h.down hk) ?_
        rw [List.length_append, List.length_singleton]
        omega
    exact hall L.length [] i .here (by simp)

section Climb

variable [DecidableEq ι]

/-- **Climbing up finds the way down.** -/
theorem climb_iff (hF : Forest children parent L) (hi : i ∈ L)
    (hno : ¬ TransGen (Child children) i i) (hj : j ∈ L) :
    climb parent i L.length j = some above ↔ IsWay children i above j := by
  constructor
  · generalize L.length = n
    intro h
    induction n generalizing j above with
    | zero => cases h
    | succ n ih =>
      by_cases hji : j = i
      · rw [climb, if_pos hji] at h
        cases h
        exact hji ▸ .here
      · rw [climb_succ_of_ne hji] at h
        obtain ⟨k, hk, h⟩ := Option.bind_eq_some_iff.mp h
        obtain ⟨rest, hrest, rfl⟩ := Option.map_eq_some_iff.mp h
        obtain ⟨hkL, hjk⟩ := (hF.parent_iff j hj k).mp hk
        exact (ih hkL hrest).down hjk
  · intro h
    have hall : ∀ n, above.length < n → climb parent i n j = some above := by
      intro n hn
      induction h generalizing n with
      | here =>
        obtain ⟨n, rfl⟩ : ∃ m, n = m + 1 := ⟨n - 1, by omega⟩
        exact if_pos rfl
      | @down above k j h hjk ih =>
        rw [List.length_append, List.length_singleton] at hn
        obtain ⟨n, rfl⟩ : ∃ m, n = m + 1 := ⟨n - 1, by omega⟩
        have hk := (hF.mem_of_way hi h).1
        have hji : j ≠ i := by
          rintro rfl
          exact hno (TransGen.tail' h.reflTransGen hjk)
        rw [climb_succ_of_ne hji, (hF.parent_iff j hj k).mpr ⟨hk, hjk⟩, Option.bind_some,
          ih hk n (by omega)]
        rfl
    exact hall L.length (hF.length_way hi hno h)

/-- **The tree has each node below the root once**, with the nodes that climbing up from it meets. -/
theorem ways_perm (hF : Forest children parent L) (hL : L.Nodup) (hi : i ∈ L) {n : Nat}
    {ws : List (Way ι)} (hws : ways children n i = some ws) :
    ws.Perm (L.filterMap fun j => (climb parent i L.length j).map fun above => (above, j)) := by
  have hno : ¬ TransGen (Child children) i i := by
    intro hcircle
    rw [ways, unfold_eq_none hcircle] at hws
    cases hws
  refine (List.perm_ext_iff_of_nodup (nodup_ways hF.nodup hws) ?_).mpr fun w => ?_
  · refine hL.filterMap fun j k w hj hk => ?_
    obtain ⟨_, _, rfl⟩ := Option.map_eq_some_iff.mp hj
    obtain ⟨_, _, he⟩ := Option.map_eq_some_iff.mp hk
    exact (Prod.mk.inj he).2.symm
  · rw [mem_ways hws, List.mem_filterMap]
    constructor
    · intro hway
      have hj := (hF.mem_of_way hi hway).1
      exact ⟨w.2, hj, by rw [(hF.climb_iff hi hno hj).mpr hway]; rfl⟩
    · rintro ⟨j, hj, h⟩
      obtain ⟨above, habove, rfl⟩ := Option.map_eq_some_iff.mp h
      exact (hF.climb_iff hi hno hj).mp habove

end Climb

end Forest

/-! ## What hangs on the nodes -/

section Hung

variable {τ : Type*} {L : List ι} {T : List τ} {on : τ → ι → Bool} {owner : τ → Option ι}

/-- Only the node an item hangs on counts. -/
theorem flatMap_owner (hL : L.Nodup) {t : τ}
    (h : ∀ i, owner t = some i ↔ i ∈ L ∧ on t i = true) (f : ι → List β) :
    (L.flatMap fun i => if on t i then f i else []) = (owner t).elim [] f := by
  cases ho : owner t with
  | none =>
    refine List.flatMap_eq_nil_iff.mpr fun i hi => if_neg fun hon => ?_
    have := (h i).mpr ⟨hi, hon⟩
    rw [ho] at this
    cases this
  | some k =>
    obtain ⟨hk, hon⟩ := (h k).mp ho
    obtain ⟨l₁, l₂, rfl⟩ := List.append_of_mem hk
    have hother : ∀ i ∈ l₁ ++ k :: l₂, i ≠ k → (if on t i then f i else []) = [] := by
      refine fun i hi hne => if_neg fun hit => hne ?_
      have := (h i).mpr ⟨hi, hit⟩
      rw [ho] at this
      exact (Option.some.inj this).symm
    have hnd := List.nodup_middle.mp hL
    rw [List.nodup_cons, List.mem_append, not_or] at hnd
    have h₁ : (l₁.flatMap fun i => if on t i then f i else []) = [] :=
      List.flatMap_eq_nil_iff.mpr fun i hi => hother i (by simp [hi]) fun he => hnd.1.1 (he ▸ hi)
    have h₂ : (l₂.flatMap fun i => if on t i then f i else []) = [] :=
      List.flatMap_eq_nil_iff.mpr fun i hi => hother i (by simp [hi]) fun he => hnd.1.2 (he ▸ hi)
    rw [List.flatMap_append, List.flatMap_cons, h₁, h₂, if_pos hon, List.append_nil]
    rfl

theorem flatMap_filter (q : τ → Bool) (f : τ → List β) :
    (T.filter q).flatMap f = T.flatMap fun t => if q t then f t else [] := by
  induction T with
  | nil => rfl
  | cons t T ih =>
    rw [List.flatMap_cons, ← ih]
    by_cases hq : q t = true
    · rw [List.filter_cons_of_pos hq, List.flatMap_cons, if_pos hq]
    · rw [List.filter_cons_of_neg hq, if_neg hq, List.nil_append]

/-- **Node by node, or item by item**: where each item hangs on one node at most. -/
theorem hung_perm (hL : L.Nodup)
    (h : ∀ t ∈ T, ∀ i, owner t = some i ↔ i ∈ L ∧ on t i = true) (f : ι → τ → List β) :
    (L.flatMap fun i => (T.filter fun t => on t i).flatMap (f i)).Perm
      (T.flatMap fun t => (owner t).elim [] fun i => f i t) := by
  have hswap : (L.flatMap fun i => T.flatMap fun t => if on t i then f i t else []).Perm
      (T.flatMap fun t => L.flatMap fun i => if on t i then f i t else []) := by
    refine Multiset.coe_eq_coe.mp ?_
    simp only [← Multiset.coe_bind]
    exact Multiset.bind_bind _ _
  simp only [flatMap_filter]
  refine hswap.trans (List.Perm.of_eq ?_)
  exact List.flatMap_congr fun t ht => flatMap_owner hL (h t ht) fun i => f i t

end Hung

end Trees
