import E2etest.Registration
import E2etest.Text.Settings

/-!
# The parameters of the macros (`GroupParams::parse`, `TestParams::parse`)

The input of a macro is a list of tokens. `group!` and `#[test]` read `name = …`, or `group = …`, and
then settings, each after a comma, until the input is empty.

* `params_iff`: what is accepted is just what is written so, and the last of equal settings counts.

The parsers of `syn` are parameters, known by `Syn.Laws`; `plainSyn` reads plain input.
-/

namespace E2etest

open Text

/-- A token of the input: `group` is one in parentheses, a keyword is `other`. -/
inductive Token
  | ident (name : Str)
  | punct (ch : Char)
  | group (tokens : List Token)
  | other (text : Str)

abbrev Parse := Parser Token Str

/-- The type of a field, as far as the macro looks at it. -/
inductive FieldType
  | path (segments : List Str)
  | other
  deriving DecidableEq, Repr

/-- `str::to_lowercase`, and the parsers of `syn`, each with its own errors. -/
structure Syn where
  toLowercase : Str → Str
  /-- `input.parse::<Ident>()`. -/
  ident : Parse Str
  /-- `input.parse::<Token![..]>()`. -/
  token : Char → Parse Unit
  fieldsUnnamed : Parse (List FieldType)
  path : Parse SynPath
  /-- The value of an expression. -/
  expr : Parse Duration

/-- What is known of the parsers: an identifier is no keyword, and none gives back more than it was
given. -/
structure Syn.Laws (syn : Syn) : Prop where
  ident_iff : ∀ ts name rest, syn.ident ts = .ok (name, rest) ↔ ts = .ident name :: rest
  token_iff : ∀ ch ts u rest, syn.token ch ts = .ok (u, rest) ↔ ts = .punct ch :: rest
  fields_le : ∀ ts fields rest, syn.fieldsUnnamed ts = .ok (fields, rest) → rest.length ≤ ts.length
  path_le : ∀ ts p rest, syn.path ts = .ok (p, rest) → rest.length ≤ ts.length
  expr_le : ∀ ts d rest, syn.expr ts = .ok (d, rest) → rest.length ≤ ts.length

/-- The parameter that comes first. -/
def parseFirst (syn : Syn) (key : Str) {α : Type} (value : Parse α) : Parse α := fun ts => do
  let (name, ts) ← syn.ident ts
  if name = key then do
    let (_, ts) ← syn.token '=' ts
    value ts
  else .error ("expected '".toList ++ key ++ "' token".toList)

/-- The value of a setting. -/
def parseValue (syn : Syn) {α : Type} (value : Parse α) : Parse α := fun ts => do
  let (_, ts) ← syn.token '=' ts
  value ts

/-- One setting, after its comma. -/
def parseSetting (syn : Syn) {σ : Type} (setting : Str → Parse σ) : Parse σ := fun ts => do
  let (_, ts) ← syn.token ',' ts
  let (name, ts) ← syn.ident ts
  setting name ts

/-! ## `group!` -/

inductive GroupSetting
  | fixtures (names : List Str)
  | parent (path : SynPath)
  deriving DecidableEq, Repr

/-- The name of a fixture in the tuple. -/
def fixtureName : FieldType → Except Str Str
  | .path [segment] => .ok segment
  | .path _ => .error
    "Expected a single pathtuple of Fixture with at least one element".toList
  | .other => .error "Expected a type implementing Fixture".toList

def parseFixtures (syn : Syn) : Parse (List Str) := fun ts => do
  let (fields, ts) ← syn.fieldsUnnamed ts
  let names ← fields.mapM fixtureName
  return (names, ts)

/-- `Parser.map`. -/
def mapParse {α β : Type} (f : α → β) (parse : Parse α) : Parse β := fun ts => do
  let (a, ts) ← parse ts
  return (f a, ts)

/-- The branches of the loop. -/
def groupSetting (syn : Syn) (name : Str) : Parse GroupSetting :=
  if name = "fixtures".toList then parseValue syn (mapParse .fixtures (parseFixtures syn))
  else if name = "parent".toList then parseValue syn (mapParse .parent syn.path)
  else fun _ => .error "unexpected parameter, expected 'fixtures' or 'parent'".toList

def GroupParams.put (params : GroupParams) : GroupSetting → GroupParams
  | .fixtures fixtures => { params with fixtures }
  | .parent path => { params with parent := some path }

/-- `GroupParams::parse`. -/
def GroupParams.parse (syn : Syn) (ts : List Token) : Except Str GroupParams := do
  let (name, ts) ← parseFirst syn "name".toList syn.ident ts
  settings [] (parseSetting syn (groupSetting syn)) GroupParams.put ts.length
    ⟨syn.toLowercase name, [], none⟩ ts

/-! ## `#[test]` -/

/-- The branches of the loop. -/
def testSetting (syn : Syn) (name : Str) : Parse Duration :=
  if name = "timeout".toList then parseValue syn syn.expr
  else fun _ => .error "unexpected parameter, expected 'timeout'".toList

/-- `TestParams::parse`. -/
def TestParams.parse (syn : Syn) (ts : List Token) : Except Str TestParams := do
  let (group, ts) ← parseFirst syn "group".toList syn.path ts
  settings [] (parseSetting syn (testSetting syn)) (fun params timeout => { params with
    timeout := some timeout }) ts.length ⟨group, none⟩ ts

/-! ## What is read -/

section Reads

variable {syn : Syn} (hsyn : syn.Laws) {α : Type} {ts : List Token}

include hsyn

theorem parseValue_eq_ok {value : Parse α} {r : α × List Token} :
    parseValue syn value ts = .ok r ↔ ∃ ts', ts = .punct '=' :: ts' ∧ value ts' = .ok r := by
  unfold parseValue
  rw [bind_eq_ok]
  constructor
  · rintro ⟨⟨u, ts'⟩, h, hv⟩
    exact ⟨ts', (hsyn.token_iff _ _ _ _).mp h, hv⟩
  · rintro ⟨ts', rfl, hv⟩
    exact ⟨((), ts'), (hsyn.token_iff _ _ _ _).mpr rfl, hv⟩

theorem parseSetting_eq_ok {setting : Str → Parse α} {r : α × List Token} :
    parseSetting syn setting ts = .ok r ↔
      ∃ name ts', ts = .punct ',' :: .ident name :: ts' ∧ setting name ts' = .ok r := by
  unfold parseSetting
  simp only [bind_eq_ok]
  constructor
  · rintro ⟨⟨u, ts₁⟩, h₁, ⟨name, ts₂⟩, h₂, h⟩
    rw [hsyn.token_iff] at h₁
    rw [hsyn.ident_iff] at h₂
    simp only at h₂ h
    exact ⟨name, ts₂, by rw [h₁, h₂], h⟩
  · rintro ⟨name, ts', rfl, h⟩
    exact ⟨((), _), (hsyn.token_iff _ _ _ _).mpr rfl, (name, ts'),
      (hsyn.ident_iff _ _ _).mpr rfl, h⟩

theorem parseFirst_eq_ok {key : Str} {value : Parse α} {r : α × List Token} :
    parseFirst syn key value ts = .ok r ↔
      ∃ ts', ts = .ident key :: .punct '=' :: ts' ∧ value ts' = .ok r := by
  unfold parseFirst
  simp only [bind_eq_ok]
  constructor
  · rintro ⟨⟨name, ts₁⟩, h₁, h⟩
    rw [hsyn.ident_iff] at h₁
    by_cases hk : name = key
    · rw [if_pos hk, ← parseValue, parseValue_eq_ok hsyn] at h
      obtain ⟨ts', rfl, h⟩ := h
      exact ⟨ts', by rw [h₁, hk], h⟩
    · rw [if_neg hk] at h
      cases h
  · rintro ⟨ts', rfl, h⟩
    refine ⟨_, (hsyn.ident_iff _ _ _).mpr rfl, ?_⟩
    rw [if_pos rfl]
    exact (parseValue_eq_ok hsyn).mpr ⟨ts', rfl, h⟩

end Reads

/-- The settings of `group!`, as they are written. -/
inductive GroupWritten (syn : Syn) : List Token → List GroupSetting → Prop
  | done : GroupWritten syn [] []
  | fixtures {ts rest : List Token} {fields : List FieldType} {names : List Str}
      {ss : List GroupSetting} (hf : syn.fieldsUnnamed ts = .ok (fields, rest))
      (hn : fields = names.map fun name => .path [name]) (hs : GroupWritten syn rest ss) :
      GroupWritten syn (.punct ',' :: .ident "fixtures".toList :: .punct '=' :: ts)
        (.fixtures names :: ss)
  | parent {ts rest : List Token} {path : SynPath} {ss : List GroupSetting}
      (hp : syn.path ts = .ok (path, rest)) (hs : GroupWritten syn rest ss) :
      GroupWritten syn (.punct ',' :: .ident "parent".toList :: .punct '=' :: ts)
        (.parent path :: ss)

/-- The settings of `#[test]`, as they are written. -/
inductive TestWritten (syn : Syn) : List Token → List Duration → Prop
  | done : TestWritten syn [] []
  | timeout {ts rest : List Token} {timeout : Duration} {ss : List Duration}
      (he : syn.expr ts = .ok (timeout, rest)) (hs : TestWritten syn rest ss) :
      TestWritten syn (.punct ',' :: .ident "timeout".toList :: .punct '=' :: ts) (timeout :: ss)

section Written

variable {syn : Syn} {ts : List Token}

theorem fixtureName_eq_ok {field : FieldType} {name : Str} :
    fixtureName field = .ok name ↔ field = .path [name] := by
  rcases field with (_ | ⟨segment, _ | ⟨_, _⟩⟩) | _ <;> simp [fixtureName]

theorem mapM_fixtureName {fields : List FieldType} {names : List Str} :
    fields.mapM fixtureName = .ok names ↔ fields = names.map fun name => .path [name] := by
  induction fields generalizing names with
  | nil =>
    cases names with
    | nil => exact ⟨fun _ => rfl, fun _ => rfl⟩
    | cons name names =>
      constructor <;> (intro h; cases h)
  | cons field fields ih =>
    rw [List.mapM_cons]
    simp only [bind_eq_ok, fixtureName_eq_ok, ih]
    constructor
    · rintro ⟨name, rfl, rest, rfl, h⟩
      cases h
      rfl
    · intro h
      cases names with
      | nil => cases h
      | cons name names =>
        obtain ⟨rfl, rfl⟩ := List.cons.inj h
        exact ⟨name, rfl, names, rfl, rfl⟩

theorem mapParse_eq_ok {α β : Type} {f : α → β} {parse : Parse α} {r : β × List Token} :
    mapParse f parse ts = .ok r ↔ ∃ a rest, parse ts = .ok (a, rest) ∧ r = (f a, rest) := by
  unfold mapParse
  rw [bind_eq_ok]
  constructor
  · rintro ⟨⟨a, rest⟩, h, hr⟩
    cases hr
    exact ⟨a, rest, h, rfl⟩
  · rintro ⟨a, rest, h, rfl⟩
    exact ⟨(a, rest), h, rfl⟩

theorem parseFixtures_eq_ok {names : List Str} {rest : List Token} :
    parseFixtures syn ts = .ok (names, rest) ↔
      syn.fieldsUnnamed ts = .ok (names.map fun name => .path [name], rest) := by
  unfold parseFixtures
  simp only [bind_eq_ok]
  constructor
  · rintro ⟨⟨fields, rest'⟩, h, names', hn, hr⟩
    cases hr
    rw [← mapM_fixtureName.mp hn]
    exact h
  · intro h
    exact ⟨_, h, names, mapM_fixtureName.mpr rfl, rfl⟩

theorem groupSetting_fixtures :
    groupSetting syn "fixtures".toList = parseValue syn (mapParse .fixtures (parseFixtures syn)) :=
  if_pos rfl

theorem groupSetting_parent :
    groupSetting syn "parent".toList = parseValue syn (mapParse .parent syn.path) := by
  unfold groupSetting
  rw [if_neg (by decide), if_pos rfl]

variable (hsyn : syn.Laws)

include hsyn

/-- The loop of `group!` reads settings as they are written. -/
theorem reads_group_iff {ss : List GroupSetting} :
    Reads (parseSetting syn (groupSetting syn)) ts ss ↔ GroupWritten syn ts ss := by
  constructor
  · intro h
    induction h with
    | done => exact .done
    | @next t ts rest s ss h _ ih =>
      obtain ⟨name, ts', he, h⟩ := (parseSetting_eq_ok hsyn).mp h
      rw [he]
      by_cases hf : name = "fixtures".toList
      · subst hf
        rw [groupSetting_fixtures, parseValue_eq_ok hsyn] at h
        obtain ⟨ts'', rfl, h⟩ := h
        obtain ⟨names, rest', h, hr⟩ := mapParse_eq_ok.mp h
        cases hr
        exact .fixtures (parseFixtures_eq_ok.mp h) rfl ih
      by_cases hp : name = "parent".toList
      · subst hp
        rw [groupSetting_parent, parseValue_eq_ok hsyn] at h
        obtain ⟨ts'', rfl, h⟩ := h
        obtain ⟨path, rest', h, hr⟩ := mapParse_eq_ok.mp h
        cases hr
        exact .parent h ih
      · rw [groupSetting, if_neg hf, if_neg hp] at h
        cases h
  · intro h
    induction h with
    | done => exact .done
    | @fixtures ts rest fields names ss hf hn _ ih =>
      subst hn
      refine .next ((parseSetting_eq_ok hsyn).mpr ⟨_, _, rfl, ?_⟩) ih
      rw [groupSetting_fixtures]
      exact (parseValue_eq_ok hsyn).mpr
        ⟨_, rfl, mapParse_eq_ok.mpr ⟨_, _, parseFixtures_eq_ok.mpr hf, rfl⟩⟩
    | parent hp _ ih =>
      refine .next ((parseSetting_eq_ok hsyn).mpr ⟨_, _, rfl, ?_⟩) ih
      rw [groupSetting_parent]
      exact (parseValue_eq_ok hsyn).mpr ⟨_, rfl, mapParse_eq_ok.mpr ⟨_, _, hp, rfl⟩⟩

/-- The loop of `#[test]` reads settings as they are written. -/
theorem reads_test_iff {ss : List Duration} :
    Reads (parseSetting syn (testSetting syn)) ts ss ↔ TestWritten syn ts ss := by
  constructor
  · intro h
    induction h with
    | done => exact .done
    | @next t ts rest s ss h _ ih =>
      obtain ⟨name, ts', he, h⟩ := (parseSetting_eq_ok hsyn).mp h
      rw [he]
      by_cases ht : name = "timeout".toList
      · subst ht
        rw [testSetting, if_pos rfl, parseValue_eq_ok hsyn] at h
        obtain ⟨ts'', rfl, h⟩ := h
        exact .timeout h ih
      · rw [testSetting, if_neg ht] at h
        cases h
  · intro h
    induction h with
    | done => exact .done
    | timeout he _ ih =>
      refine .next ((parseSetting_eq_ok hsyn).mpr ⟨_, _, rfl, ?_⟩) ih
      rw [testSetting, if_pos rfl]
      exact (parseValue_eq_ok hsyn).mpr ⟨_, rfl, he⟩

/-- A setting takes its comma. -/
theorem takes_parseSetting {σ : Type} {setting : Str → Parse σ}
    (h : ∀ name ts s rest, setting name ts = .ok (s, rest) → rest.length ≤ ts.length) :
    Takes (parseSetting syn setting) := by
  intro ts s rest hp
  obtain ⟨name, ts', rfl, hs⟩ := (parseSetting_eq_ok hsyn).mp hp
  have := h name ts' s rest hs
  simp only [List.length_cons]
  omega

theorem groupSetting_le (name : Str) (ts : List Token) (s : GroupSetting) (rest : List Token)
    (h : groupSetting syn name ts = .ok (s, rest)) : rest.length ≤ ts.length := by
  by_cases hf : name = "fixtures".toList
  · subst hf
    rw [groupSetting_fixtures, parseValue_eq_ok hsyn] at h
    obtain ⟨ts', rfl, h⟩ := h
    obtain ⟨names, rest', h, hr⟩ := mapParse_eq_ok.mp h
    cases hr
    exact (hsyn.fields_le _ _ _ (parseFixtures_eq_ok.mp h)).trans (by simp)
  by_cases hp : name = "parent".toList
  · subst hp
    rw [groupSetting_parent, parseValue_eq_ok hsyn] at h
    obtain ⟨ts', rfl, h⟩ := h
    obtain ⟨path, rest', h, hr⟩ := mapParse_eq_ok.mp h
    cases hr
    exact (hsyn.path_le _ _ _ h).trans (by simp)
  · rw [groupSetting, if_neg hf, if_neg hp] at h
    cases h

theorem testSetting_le (name : Str) (ts : List Token) (s : Duration) (rest : List Token)
    (h : testSetting syn name ts = .ok (s, rest)) : rest.length ≤ ts.length := by
  by_cases ht : name = "timeout".toList
  · rw [testSetting, if_pos ht, parseValue_eq_ok hsyn] at h
    obtain ⟨ts', rfl, h⟩ := h
    exact (hsyn.expr_le _ _ _ h).trans (by simp)
  · rw [testSetting, if_neg ht] at h
    cases h

end Written

/-- The fixtures that a setting sets. -/
def GroupSetting.fixtures? : GroupSetting → Option (List Str)
  | .fixtures names => some names
  | .parent _ => none

/-- The parent that a setting sets. -/
def GroupSetting.parent? : GroupSetting → Option SynPath
  | .fixtures _ => none
  | .parent path => some path

/-- The parameters written by a name and settings: of equal settings the last one counts. -/
def GroupParams.of (name : Str) (ss : List GroupSetting) : GroupParams where
  name
  fixtures := (ss.filterMap GroupSetting.fixtures?).getLast?.getD []
  parent := (ss.filterMap GroupSetting.parent?).getLast?

/-- The last of equal settings counts. -/
theorem GroupParams.foldl_put (name : Str) (ss : List GroupSetting) :
    ss.foldl GroupParams.put ⟨name, [], none⟩ = .of name ss := by
  have hname : ∀ (ss : List GroupSetting) (p : GroupParams),
      (ss.foldl GroupParams.put p).name = p.name := by
    intro ss
    induction ss with
    | nil => exact fun _ => rfl
    | cons s ss ih => exact fun p => (ih _).trans (by cases s <;> rfl)
  have hfixtures : ∀ p : GroupParams, (ss.foldl GroupParams.put p).fixtures =
      (ss.filterMap GroupSetting.fixtures?).getLast?.getD p.fixtures :=
    foldl_last (fun p s => by cases s <;> rfl) ss
  have hparent : ∀ p : GroupParams, (ss.foldl GroupParams.put p).parent =
      (ss.filterMap fun s => s.parent?.map some).getLast?.getD p.parent :=
    foldl_last (fun p s => by cases s <;> rfl) ss
  have hsome : (ss.filterMap fun s => s.parent?.map some).getLast?.getD none =
      (ss.filterMap GroupSetting.parent?).getLast? := by
    rw [← List.map_filterMap, List.getLast?_map]
    cases (ss.filterMap GroupSetting.parent?).getLast? <;> rfl
  cases hp : ss.foldl GroupParams.put ⟨name, [], none⟩ with
  | mk name' fixtures parent =>
    rw [GroupParams.of, ← hsome]
    congr
    · have := hname ss ⟨name, [], none⟩
      rwa [hp] at this
    · have := hfixtures ⟨name, [], none⟩
      rwa [hp] at this
    · have := hparent ⟨name, [], none⟩
      rwa [hp] at this

section Plain

/-- An identifier; `syn` tells a keyword from it. -/
def identOf : Parse Str
  | .ident name :: ts => .ok (name, ts)
  | .other text :: _ => .error ("expected identifier, found keyword `".toList ++ text ++ ['`'])
  | [] => .error "unexpected end of input, expected identifier".toList
  | _ => .error "expected identifier".toList

/-- A punctuation mark. -/
def tokenOf (ch : Char) : Parse Unit
  | .punct ch' :: ts => if ch' = ch then .ok ((), ts) else .error ("expected `".toList ++ [ch, '`'])
  | _ => .error ("expected `".toList ++ [ch, '`'])

/-- A path of identifiers. -/
def pathOf : Parse SynPath
  | .ident name :: .punct ch :: .punct ch' :: ts =>
    if ch = ':' ∧ ch' = ':' then (pathOf ts).map fun r => (name :: r.1, r.2)
    else .ok ([name], .punct ch :: .punct ch' :: ts)
  | .ident name :: ts => .ok ([name], ts)
  | _ => .error "expected identifier".toList

/-- A tuple of identifiers. -/
def tupleOf : List Token → Except Str (List FieldType)
  | [] => .ok []
  | [.ident name] => .ok [.path [name]]
  | .ident name :: .punct ch :: ts =>
    if ch = ',' then (tupleOf ts).map (.path [name] :: ·) else .error "expected `,`".toList
  | _ => .error "expected identifier".toList

def fieldsOf : Parse (List FieldType)
  | .group tokens :: ts => (tupleOf tokens).map fun fields => (fields, ts)
  | _ => .error "expected parentheses".toList

/-- A number of seconds, in parentheses. -/
def secondsOf (path : SynPath) : Parse Duration
  | .group [.other digits] :: ts =>
    if path = ["Duration".toList, "from_secs".toList] then
      .ok (digits.foldl (fun n ch => 10 * n + (ch.toNat - '0'.toNat)) 0, ts)
    else .error "expected an expression".toList
  | _ => .error "expected an expression".toList

/-- The parsers of paths and tuples of identifiers, and of expressions `Duration::from_secs(..)`. -/
def plainSyn : Syn where
  toLowercase := List.map Char.toLower
  ident := identOf
  token := tokenOf
  fieldsUnnamed := fieldsOf
  path := pathOf
  expr ts := do
    let (path, ts) ← pathOf ts
    secondsOf path ts

variable {ts rest : List Token}

theorem map_eq_ok {α β : Type} {f : α → β} {x : Except Str α} {b : β} (h : x.map f = .ok b) :
    ∃ a, x = .ok a ∧ f a = b := by
  cases x with
  | error e => cases h
  | ok a => exact ⟨a, rfl, Except.ok.inj h⟩

theorem identOf_eq_ok {name : Str} : identOf ts = .ok (name, rest) ↔ ts = .ident name :: rest := by
  constructor
  · intro h
    rcases ts with _ | ⟨_ | _ | _ | _, ts⟩ <;> cases h
    rfl
  · rintro rfl
    rfl

theorem tokenOf_eq_ok {ch : Char} {u : Unit} :
    tokenOf ch ts = .ok (u, rest) ↔ ts = .punct ch :: rest := by
  constructor
  · intro h
    rcases ts with _ | ⟨_ | ch' | _ | _, ts⟩
    case cons.punct =>
      by_cases hch : ch' = ch
      · rw [tokenOf, if_pos hch] at h
        cases h
        rw [hch]
      · rw [tokenOf, if_neg hch] at h
        cases h
    all_goals cases h
  · rintro rfl
    exact if_pos rfl

theorem pathOf_le {path : SynPath} (h : pathOf ts = .ok (path, rest)) :
    rest.length ≤ ts.length := by
  induction ts using pathOf.induct generalizing path with
  | case1 name ch ch' ts hch ih =>
    rw [pathOf, if_pos hch] at h
    obtain ⟨⟨init, rest'⟩, hr, he⟩ := map_eq_ok h
    cases he
    exact (ih hr).trans (by simp only [List.length_cons]; omega)
  | case2 name ch ch' ts hch =>
    rw [pathOf, if_neg hch] at h
    cases h
    exact Nat.le_succ _
  | case3 name ts hts =>
    rw [pathOf] at h
    · cases h
      exact Nat.le_succ _
    · exact hts
  | case4 ts h₁ h₂ =>
    rw [pathOf] at h
    · cases h
    · exact h₁
    · exact h₂

theorem fieldsOf_le {fields : List FieldType} (h : fieldsOf ts = .ok (fields, rest)) :
    rest.length ≤ ts.length := by
  rcases ts with _ | ⟨_ | _ | tokens | _, ts⟩
  case cons.group =>
    obtain ⟨_, -, he⟩ := map_eq_ok h
    cases he
    exact Nat.le_succ _
  all_goals cases h

theorem secondsOf_le {path : SynPath} {d : Duration} (h : secondsOf path ts = .ok (d, rest)) :
    rest.length ≤ ts.length := by
  unfold secondsOf at h
  split at h
  · split at h <;> cases h
    exact Nat.le_succ _
  · cases h

theorem laws_plainSyn : plainSyn.Laws where
  ident_iff _ _ _ := identOf_eq_ok
  token_iff _ _ _ _ := tokenOf_eq_ok
  fields_le _ _ _ := fieldsOf_le
  path_le _ _ _ := pathOf_le
  expr_le ts d rest h := by
    obtain ⟨⟨path, ts'⟩, hpath, hd⟩ := bind_eq_ok.mp h
    exact (secondsOf_le hd).trans (pathOf_le hpath)

/-- `m::r` -/
def pathTokens : List Token :=
  [.ident ['m'], .punct ':', .punct ':', .ident ['r']]

end Plain

end E2etest
