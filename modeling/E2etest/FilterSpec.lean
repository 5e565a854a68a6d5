import E2etest.Filter

/-!
# What a filter selects

The loop of `Filter::new` visits every pair of a filter string and a test of a subgroup, and each
visit is a `Hit`: a miss, the whole group, or the one test. `Represents` says what the map and the
set hold after some visits, `step_represents` that one visit keeps it, and `new_represents` that
`Filter::new` ends with the visits of all the pairs.

The visits form a set for this: their order and number do not count (`Represents.agrees`), and so
neither do those of the filter strings (`new_agrees`).
-/

namespace E2etest

open Text

/-- What one filter string does to one test of a subgroup. -/
inductive Hit
  | miss
  | group
  | test
  deriving DecidableEq, Repr

namespace Filter

/-- The visit of the loop body, as `addFilter` decides it. -/
def hit (filter groupName testName : Str) : Hit :=
  match rsplitOnce filter with
  | some (groupPart, testPart) =>
    if !(FilterMatcher.new groupPart).isMatch groupName then .miss
    else if FilterMatcher.new testPart = .any then .group
    else if (FilterMatcher.new testPart).isMatch testName then .test
    else .miss
  | none =>
    if (FilterMatcher.new filter).isMatch groupName then .group
    else if (FilterMatcher.new filter).isMatch testName then .test
    else .miss

/-- A visit of the loop: its hit, and the test it was about. -/
abbrev Visit := Hit × Str × Str

/-- One visit. -/
def visit (parentName : Str) (f : Filter) : Visit → Filter
  | (.miss, _, _) => f
  | (.group, groupName, _) => f.selectGroup parentName groupName
  | (.test, groupName, testName) => f.selectTest parentName groupName testName

/-- The visits of one filter string. -/
def visitsOf (tests : List (Str × Str)) (filter : Str) : List Visit :=
  tests.map fun t => (hit filter t.1 t.2, t.1, t.2)

theorem addFilter_eq (parentName : Str) (tests : List (Str × Str)) (f : Filter) (filter : Str) :
    f.addFilter parentName tests filter = (visitsOf tests filter).foldl (visit parentName) f := by
  unfold addFilter visitsOf
  split <;> rename_i hr
  · rw [List.foldl_map]
    refine List.foldl_ext _ _ _ fun f t _ => ?_
    simp only [hit, hr]
    split
    · rfl
    · split
      · rfl
      · split <;> rfl
  · rw [List.foldl_map]
    refine List.foldl_ext _ _ _ fun f t _ => ?_
    simp only [hit, hr]
    split
    · rfl
    · split <;> rfl

/-- The path of a non-empty prefix of the names of `groupName`, below `parentName`. -/
def OnWay (parentName groupName s : Str) : Prop :=
  ∃ ns, ns ≠ [] ∧ ns <+: split groupName ∧ s = join (parentName :: ns)

theorem mem_foldl_paths (names : List Str) (acc s : Str) (groups : Finset Str) :
    s ∈ (names.foldl (fun (p : Str × Finset Str) name =>
        (p.1 ++ sep ++ name, insert (p.1 ++ sep ++ name) p.2)) (acc, groups)).2 ↔
      s ∈ groups ∨ ∃ ns, ns ≠ [] ∧ ns <+: names ∧ s = join (acc :: ns) := by
  induction names generalizing acc groups with
  | nil =>
    simp only [List.foldl_nil, List.prefix_nil]
    exact ⟨Or.inl, fun h => h.elim id fun ⟨ns, hne, hns, _⟩ => absurd hns hne⟩
  | cons n names ih =>
    rw [List.foldl_cons, ih, Finset.mem_insert]
    constructor
    · rintro ((rfl | h) | ⟨ns, hne, hpre, rfl⟩)
      · exact Or.inr ⟨[n], by simp, by simp, rfl⟩
      · exact Or.inl h
      · refine Or.inr ⟨n :: ns, by simp, (List.prefix_cons_inj n).mpr hpre, ?_⟩
        rw [join_cons _ hne, join_cons acc (by simp), join_cons n hne]
        simp only [List.append_assoc]
    · rintro (h | ⟨ns, hne, hpre, rfl⟩)
      · exact Or.inl (Or.inr h)
      · obtain ⟨m, ns, rfl⟩ := List.exists_cons_of_ne_nil hne
        obtain ⟨rfl, hpre'⟩ := List.cons_prefix_cons.mp hpre
        cases ns with
        | nil => exact Or.inl (Or.inl rfl)
        | cons k ns =>
          refine Or.inr ⟨k :: ns, by simp, hpre', ?_⟩
          rw [join_cons (acc ++ sep ++ m) (by simp), join_cons acc (by simp),
            join_cons m (by simp)]
          simp only [List.append_assoc]

theorem mem_updateGroupSet {parentName groupName s : Str} {groups : Finset Str} :
    s ∈ updateGroupSet parentName groupName groups ↔ s ∈ groups ∨ OnWay parentName groupName s :=
  mem_foldl_paths _ _ _ _

/-- **What the map and the set hold** after the visits `vs`. -/
structure Represents (parentName : Str) (vs : List Visit) (f : Filter) : Prop where
  keys : ∀ k, k ∈ f.tests ↔ ∃ v ∈ vs, v.1 ≠ .miss ∧ k = parentName ++ sep ++ v.2.1
  names : ∀ g S, f.tests.lookup (parentName ++ sep ++ g) = some S →
    ∀ t, t ∈ S ↔ (Hit.test, g, t) ∈ vs
  groups : ∀ s, s ∈ f.groups ↔ ∃ v ∈ vs, v.1 ≠ .miss ∧ OnWay parentName v.2.1 s

theorem empty_represents (parentName : Str) : Represents parentName [] empty where
  keys k := by simp [empty]
  names g S h := by simp [empty] at h
  groups s := by simp [empty]

theorem key_inj {p g g' : Str} (h : p ++ sep ++ g = p ++ sep ++ g') : g = g' :=
  List.append_cancel_left h

variable {parentName : Str} {vs : List Visit} {f : Filter}

/-- One visit more. -/
theorem exists_snoc_iff {v : Visit} {P : Visit → Prop} :
    (∃ w ∈ vs ++ [v], P w) ↔ (∃ w ∈ vs, P w) ∨ P v := by
  simp only [List.mem_append, List.mem_singleton]
  constructor
  · rintro ⟨w, hw | rfl, hP⟩
    · exact Or.inl ⟨w, hw, hP⟩
    · exact Or.inr hP
  · rintro (⟨w, hw, hP⟩ | hP)
    · exact ⟨w, Or.inl hw, hP⟩
    · exact ⟨v, Or.inr rfl, hP⟩

/-- Inserting under the key of `g` a set that holds the old names, and what else the visit added,
keeps the representation. -/
theorem insert_represents (h : Represents parentName vs f) {hit : Hit} (hne : hit ≠ .miss)
    (g t : Str) {S : Finset Str}
    (hS : ∀ u, u ∈ S ↔ u ∈ (f.tests.lookup (parentName ++ sep ++ g)).getD ∅ ∨ hit = .test ∧ u = t) :
    Represents parentName (vs ++ [(hit, g, t)])
      ⟨f.tests.insert (parentName ++ sep ++ g) S, updateGroupSet parentName g f.groups⟩ where
  keys k := by
    rw [AList.mem_insert, h.keys, exists_snoc_iff, or_comm]
    exact or_congr_right (and_iff_right hne).symm
  names g' S' hl u := by
    rw [List.mem_append, List.mem_singleton, Prod.mk.injEq, Prod.mk.injEq]
    by_cases hg : g' = g
    · subst hg
      rw [AList.lookup_insert] at hl
      obtain rfl := Option.some.inj hl
      rw [hS]
      have hold : u ∈ (f.tests.lookup (parentName ++ sep ++ g')).getD ∅ ↔ (Hit.test, g', u) ∈ vs := by
        cases hf : f.tests.lookup (parentName ++ sep ++ g') with
        | some S => exact h.names g' S hf u
        | none =>
          refine ⟨fun hu => absurd hu (Finset.notMem_empty u), fun hu => ?_⟩
          have hk := (h.keys (parentName ++ sep ++ g')).mpr ⟨_, hu, Hit.noConfusion, rfl⟩
          rw [← AList.lookup_isSome, hf] at hk
          cases hk
      rw [hold]
      refine or_congr_right ⟨fun ht => ⟨ht.1.symm, rfl, ht.2⟩, fun ht => ⟨ht.1.symm, ht.2.2⟩⟩
    · have hk : parentName ++ sep ++ g' ≠ parentName ++ sep ++ g := fun e => hg (key_inj e)
      rw [AList.lookup_insert_ne hk] at hl
      rw [h.names g' S' hl u]
      exact ⟨Or.inl, fun hu => hu.elim id fun hu => absurd hu.2.1 hg⟩
  groups s := by
    rw [mem_updateGroupSet, h.groups, exists_snoc_iff]
    exact or_congr_right (and_iff_right hne).symm

/-- **One visit keeps the representation.** -/
theorem step_represents (h : Represents parentName vs f) (v : Visit) :
    Represents parentName (vs ++ [v]) (visit parentName f v) := by
  obtain ⟨hit, g, t⟩ := v
  cases hit with
  | miss =>
    constructor
    · intro k
      unfold visit
      rw [h.keys, exists_snoc_iff]
      exact (or_iff_left fun hm => hm.1 rfl).symm
    · intro g' S hl u
      rw [h.names g' S hl u]
      simp
    · intro s
      unfold visit
      rw [h.groups, exists_snoc_iff]
      exact (or_iff_left fun hm => hm.1 rfl).symm
  | group => exact insert_represents h (by decide) g t (by simp)
  | test =>
    refine insert_represents h (by decide) g t fun u => ?_
    rw [Finset.mem_insert, or_comm]
    simp

theorem foldl_represents (h : Represents parentName vs f) (ws : List Visit) :
    Represents parentName (vs ++ ws) (ws.foldl (visit parentName) f) := by
  induction ws generalizing vs f with
  | nil => simpa using h
  | cons w ws ih =>
    have := ih (step_represents h w)
    rwa [List.append_assoc, List.singleton_append] at this

/-- **`Filter::new` ends with the visits of all the pairs** of a filter string and a test of a
subgroup. -/
theorem new_represents (filters : List Str) (g : Group) :
    Represents g.name (filters.flatMap (visitsOf (g.testNames.filterMap rsplitOnce)))
      (new filters g) := by
  unfold new
  split
  · rename_i h
    subst h
    exact empty_represents g.name
  · have hfold : ∀ (fs : List Str) (f : Filter),
        fs.foldl (addFilter g.name (g.testNames.filterMap rsplitOnce)) f =
          (fs.flatMap (visitsOf (g.testNames.filterMap rsplitOnce))).foldl (visit g.name) f := by
      intro fs
      induction fs with
      | nil => intro f; rfl
      | cons x xs ih =>
        intro f
        rw [List.foldl_cons, List.flatMap_cons, List.foldl_append, ih, addFilter_eq]
    rw [hfold]
    exact foldl_represents (empty_represents g.name) _

/-! ## Only the set of visits counts -/

/-- The two filters give the same answer to every query. -/
def Agrees (f f' : Filter) : Prop :=
  (∀ groupNames groupName, f.considerGroup groupNames groupName =
    f'.considerGroup groupNames groupName) ∧
  ∀ groupNames testName, f.considerTest groupNames testName = f'.considerTest groupNames testName

theorem keys_eq_nil_iff {f : Filter} : f.tests.keys = [] ↔ ∀ k, f.tests.lookup k = none := by
  simp only [List.eq_nil_iff_forall_not_mem, AList.mem_keys, AList.lookup_eq_none]

/-- The answers are read off the entries of the map and the elements of the set. -/
theorem agrees_of_eq {f f' : Filter} (ht : ∀ k, f.tests.lookup k = f'.tests.lookup k)
    (hg : f.groups = f'.groups) : Agrees f f' := by
  refine ⟨fun groupNames groupName => ?_, fun groupNames testName => ?_⟩
  · unfold considerGroup
    rw [hg]
  · have hkeys : (f.tests.keys = []) = (f'.tests.keys = []) := by
      simp only [keys_eq_nil_iff, ht]
    unfold considerTest
    rw [ht]
    simp only [hkeys]

section SameVisits

variable {ws : List Visit} {f' : Filter} (hf : Represents parentName vs f)
  (hf' : Represents parentName ws f') (h : ∀ v, v ∈ vs ↔ v ∈ ws)

include hf hf' h

theorem Represents.mem_tests_congr (k : Str) : k ∈ f.tests ↔ k ∈ f'.tests := by
  rw [hf.keys, hf'.keys]
  simp only [h]

theorem Represents.lookup_congr (k : Str) : f.tests.lookup k = f'.tests.lookup k := by
  have hmem := hf.mem_tests_congr hf' h k
  cases hl : f.tests.lookup k with
  | none =>
    have hk : k ∉ f'.tests := fun hk => AList.lookup_eq_none.mp hl (hmem.mpr hk)
    exact (AList.lookup_eq_none.mpr hk).symm
  | some S =>
    have hk : k ∈ f.tests := AList.lookup_isSome.mp (by rw [hl]; rfl)
    obtain ⟨S', hl'⟩ := Option.isSome_iff_exists.mp (AList.lookup_isSome.mpr (hmem.mp hk))
    obtain ⟨v, -, -, rfl⟩ := (hf.keys k).mp hk
    have hS : S = S' := by
      ext t
      rw [hf.names v.2.1 S hl, hf'.names v.2.1 S' hl', h]
    rw [hl', hS]

theorem Represents.groups_congr : f.groups = f'.groups := by
  ext s
  rw [hf.groups, hf'.groups]
  simp only [h]

/-- **Filters that represent the same visits**, in any order and any number of times, agree. -/
theorem Represents.agrees : Agrees f f' :=
  agrees_of_eq (hf.lookup_congr hf' h) (hf.groups_congr hf' h)

end SameVisits

/-- **Only the set of filter strings counts.** -/
theorem new_agrees {fs fs' : List Str} (h : ∀ s, s ∈ fs ↔ s ∈ fs') (g : Group) :
    Agrees (new fs g) (new fs' g) := by
  refine (new_represents fs g).agrees (new_represents fs' g) fun v => ?_
  simp only [List.mem_flatMap, h]

end Filter

end E2etest
