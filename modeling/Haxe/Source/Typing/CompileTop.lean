import Haxe.Source.Typing.CompileCorrect

/-!
# The whole of `compile`

At the top a row is one pattern: for one subject, or a tuple for several. Subjects that
are not read directly get variables.
-/

namespace Haxe.Source.Typing.Compile
open Pattern Semantics Signature

variable {Value Ty : Type} {S : Semantics Value} {P : TVar → Prop} {n n0 : Nat}
variable {ρ : Env Value} {sig : Signature Ty} {ctx : Context Ty} {Γ : TVar → Ty}

/-! ## Subjects -/

/-- What `topSubjects` returns: the same types and, where the variables hold the values of
their subjects, the same values. -/
structure TopSpec (S : Semantics Value) (sig : Signature Ty) (P : TVar → Prop) (n0 : Nat)
    (Γ : TVar → Ty) (fresh : Nat) (el subjects : List (Subject Ty)) (vars : List (TVar × Texpr))
    (fresh' : Nat) : Prop where
  le : fresh ≤ fresh'
  types : subjects.map Subject.etype = el.map Subject.etype
  typed : ∃ Γ', (∀ y < fresh, Γ' y = Γ y) ∧ ∀ s ∈ subjects, sig.etype Γ' s.expr = s.etype
  free : ∀ s ∈ subjects, ∀ y ∈ s.expr.vars, y < fresh' ∧ ¬ P y
  apart : ∀ s ∈ subjects, ∀ y ∈ s.expr.vars, y < n0 ∨ fresh ≤ y
  new : ∀ b ∈ vars, fresh ≤ b.1
  nodup : (vars.map Prod.fst).Nodup
  read : ∀ b ∈ vars, ∃ s ∈ el, b.2 = s.expr
  sameValues : ∀ ρ ρ1, (∀ b ∈ vars, ρ1 b.1 = S.eval ρ b.2) → (∀ y < n0, ρ1 y = ρ y) →
    values S ρ1 subjects = values S ρ el

theorem topSubjects_spec (S : Semantics Value) (patternVars : ∀ y, P y → y < n0) {fresh : Nat}
    (le : n0 ≤ fresh) {el : List (Subject Ty)} (typed : ∀ s ∈ el, sig.etype Γ s.expr = s.etype)
    (free : ∀ s ∈ el, ∀ y ∈ s.expr.vars, y < n0 ∧ ¬ P y) {subjects : List (Subject Ty)}
    {vars : List (TVar × Texpr)} {fresh' : Nat}
    (run : topSubjects fresh el = (subjects, vars, fresh')) :
    TopSpec S sig P n0 Γ fresh el subjects vars fresh' := by
  induction el generalizing fresh subjects vars with
  | nil =>
    obtain ⟨rfl, rfl, rfl⟩ : [] = subjects ∧ [] = vars ∧ fresh = fresh' := by
      simpa [topSubjects] using run
    exact ⟨Nat.le_refl _, rfl, ⟨Γ, by simp, by simp⟩, by simp, by simp, by simp, by simp, by simp,
      fun _ _ _ _ => rfl⟩
  | cons e el ih =>
    have typedRest := fun s member => typed s (.tail _ member)
    have freeRest := fun s member => free s (.tail _ member)
    have here := free e List.mem_cons_self
    by_cases direct : (∃ ct, e.expr = .tConst ct) ∨ ∃ v, e.expr = .tLocal v
    · -- the subject is read directly
      cases later : topSubjects fresh el with
      | mk subjects1 rest =>
        obtain ⟨vars1, fresh1⟩ := rest
        obtain ⟨rfl, rfl, rfl⟩ : e :: subjects1 = subjects ∧ vars1 = vars ∧ fresh1 = fresh' := by
          rcases direct with ⟨ct, same⟩ | ⟨v, same⟩ <;> simpa [topSubjects, same, later] using run
        have spec := ih le typedRest freeRest later
        obtain ⟨Γ', old, typed'⟩ := spec.typed
        refine ⟨spec.le, by simp [spec.types], ⟨Γ', old, ?_⟩, ?_, ?_, spec.new, spec.nodup, ?_, ?_⟩
        · intro s member
          rcases List.mem_cons.mp member with rfl | member
          · rw [← typed s List.mem_cons_self]
            exact sig.etype_congr _ _ _ fun y inside =>
              old y (Nat.lt_of_lt_of_le (here y inside).1 le)
          · exact typed' s member
        · intro s member y inside
          rcases List.mem_cons.mp member with rfl | member
          · exact ⟨Nat.lt_of_lt_of_le (here y inside).1 (Nat.le_trans le spec.le), (here y inside).2⟩
          · exact spec.free s member y inside
        · intro s member y inside
          rcases List.mem_cons.mp member with rfl | member
          · exact .inl (here y inside).1
          · exact spec.apart s member y inside
        · intro b member
          obtain ⟨s, inside, same⟩ := spec.read b member
          exact ⟨s, .tail _ inside, same⟩
        · intro ρ ρ1 holds old
          have rest := spec.sameValues ρ ρ1 holds old
          have first : S.eval ρ1 e.expr = S.eval ρ e.expr :=
            eval_congr fun y inside => old y (here y inside).1
          simp only [values, List.map_cons, first] at rest ⊢
          rw [rest]
    · -- the subject gets a variable
      cases later : topSubjects (fresh + 1) el with
      | mk subjects1 rest =>
        obtain ⟨vars1, fresh1⟩ := rest
        obtain ⟨rfl, rfl, rfl⟩ : ⟨.tLocal fresh, e.etype⟩ :: subjects1 = subjects ∧
            (fresh, e.expr) :: vars1 = vars ∧ fresh1 = fresh' := by
          cases same : e.expr with
          | tConst ct => exact absurd (.inl ⟨ct, same⟩) direct
          | tLocal v => exact absurd (.inr ⟨v, same⟩) direct
          | tSub | tPure | tApp => simpa [topSubjects, same, later] using run
        have spec := ih (Nat.le_succ_of_le le) typedRest freeRest later
        obtain ⟨Γ', old, typed'⟩ := spec.typed
        refine ⟨Nat.le_trans (Nat.le_succ _) spec.le, by simp [spec.types],
          ⟨Function.update Γ' fresh e.etype, ?_, ?_⟩, ?_, ?_, ?_, ?_, ?_, ?_⟩
        · intro y below
          rw [Function.update_of_ne (Nat.ne_of_lt below), old y (Nat.lt_succ_of_lt below)]
        · intro s member
          rcases List.mem_cons.mp member with rfl | member
          · rw [sig.etype_local, Function.update_self]
          · rw [← typed' s member]
            refine sig.etype_congr _ _ _ fun y inside => Function.update_of_ne ?_ _ _
            rcases spec.apart s member y inside with below | above
            · exact Nat.ne_of_lt (Nat.lt_of_lt_of_le below le)
            · exact Nat.ne_of_gt above
        · intro s member y inside
          rcases List.mem_cons.mp member with rfl | member
          · obtain rfl : y = fresh := by simpa [Texpr.vars] using inside
            exact ⟨spec.le, fun isP => Nat.lt_irrefl _ (Nat.lt_of_lt_of_le (patternVars _ isP) le)⟩
          · exact spec.free s member y inside
        · intro s member y inside
          rcases List.mem_cons.mp member with rfl | member
          · exact .inr (Nat.le_of_eq (by simpa [Texpr.vars, eq_comm] using inside))
          · exact (spec.apart s member y inside).imp_right Nat.le_of_succ_le
        · intro b member
          rcases List.mem_cons.mp member with rfl | member
          · exact Nat.le_refl _
          · exact Nat.le_of_succ_le (spec.new b member)
        · refine List.nodup_cons.mpr ⟨fun inside => ?_, spec.nodup⟩
          obtain ⟨b, member, same⟩ := List.mem_map.mp inside
          exact absurd (spec.new b member) (by simp [same])
        · intro b member
          rcases List.mem_cons.mp member with rfl | member
          · exact ⟨e, List.mem_cons_self, rfl⟩
          · obtain ⟨s, inside, same⟩ := spec.read b member
            exact ⟨s, .tail _ inside, same⟩
        · intro ρ ρ1 holds old
          have rest := spec.sameValues ρ ρ1 (fun b member => holds b (.tail _ member)) old
          have first : ρ1 fresh = S.eval ρ e.expr := holds _ List.mem_cons_self
          simp only [values, List.map_cons, eval, first] at rest ⊢
          rw [rest]

/-! ## Rows of one pattern -/

/-- The tuples of a pattern for several subjects. -/
@[grind =] def components : Pattern → List (List Pattern)
  | patOr pat1 pat2 _ => components pat1 ++ components pat2
  | patTuple patterns _ => [patterns]
  | pat => [[pat]]

theorem expandRow_components (case : Case) (bindings : List (TVar × Texpr)) (pat : Pattern) :
    expandRow id case bindings [pat] =
      (components pat).flatMap fun patterns => expandRow id case bindings patterns := by
  match pat with
  | patOr pat1 pat2 p =>
    rw [expandRow, expandRow_components case bindings pat1, expandRow_components case bindings pat2,
      components, List.flatMap_append]
  | patTuple patterns p => simp [expandRow, components]
  | patConstructor .. | patVariable .. | patAny _ | patBind .. | patExtractor .. =>
    simp [components]

theorem matchPat_components {ts : List Ty} {pat : Pattern}
    (typed : sig.WellTyped (.tuple ts) pat) (vs : List Value) :
    S.matchPat ρ pat vs = (components pat).flatMap fun patterns => S.matchPats ρ patterns vs := by
  match pat with
  | patOr pat1 pat2 p =>
    rw [components, List.flatMap_append, ← matchPat_components (wellTyped_or.mp typed).1 vs,
      ← matchPat_components (wellTyped_or.mp typed).2 vs, matchPat]
  | patTuple patterns p => simp [components, matchPat]
  | patConstructor .. | patVariable .. | patAny _ | patBind .. | patExtractor .. =>
    simp [WellTyped] at typed

/-- The components of a pattern are typed and in scope, and bind the same variables. -/
theorem components_keep {ts : List Ty} {pat : Pattern} (typed : sig.WellTyped (.tuple ts) pat)
    (inScope : pat.Scoped P n0) {patterns : List Pattern} (member : patterns ∈ components pat) :
    sig.AllTyped ts patterns ∧ AllScoped P n0 patterns ∧
      (patVars pat).Perm (patsVars patterns) := by
  match pat with
  | patOr pat1 pat2 p =>
    obtain ⟨typed1, typed2⟩ := wellTyped_or.mp typed
    simp only [Scoped] at inScope
    rcases List.mem_append.mp member with member | member
    · exact components_keep typed1 inScope.2.1 member
    · obtain ⟨rowTyped, scopes, vars⟩ := components_keep typed2 inScope.2.2 member
      exact ⟨rowTyped, scopes, inScope.1.trans vars⟩
  | patTuple pats p =>
    obtain rfl := List.mem_singleton.mp member
    simp only [Scoped] at inScope
    exact ⟨wellTyped_tuple.mp typed, inScope, .refl _⟩
  | patConstructor .. | patVariable .. | patAny _ | patBind .. | patExtractor .. =>
    simp [WellTyped] at typed

theorem components_overtaken {ts : List Ty} {pat pat' : Pattern}
    (typed : sig.WellTyped (.tuple ts) pat) (typed' : sig.WellTyped (.tuple ts) pat')
    {patterns patterns' : List Pattern} (member : patterns ∈ components pat)
    (member' : patterns' ∈ components pat')
    (overtaken : overtakenByAll patterns patterns' = true) : overtakenBy pat pat' = true := by
  match pat with
  | patOr pat1 pat2 p =>
    obtain ⟨typed1, typed2⟩ := wellTyped_or.mp typed
    rw [overtakenBy, Bool.or_eq_true]
    exact (List.mem_append.mp member).imp
      (fun member => components_overtaken typed1 typed' member member' overtaken)
      fun member => components_overtaken typed2 typed' member member' overtaken
  | patTuple pats p =>
    match pat' with
    | patOr pat1 pat2 q =>
      obtain ⟨typed1, typed2⟩ := wellTyped_or.mp typed'
      rw [overtakenBy_or_right, Bool.or_eq_true]
      exact (List.mem_append.mp member').imp
        (fun member' => components_overtaken typed typed1 member member' overtaken)
        fun member' => components_overtaken typed typed2 member member' overtaken
    | patTuple pats' q =>
      obtain rfl := List.mem_singleton.mp member
      obtain rfl := List.mem_singleton.mp member'
      rwa [overtakenBy]
    | patConstructor .. | patVariable .. | patAny _ | patBind .. | patExtractor .. =>
      simp [WellTyped] at typed'
  | patConstructor .. | patVariable .. | patAny _ | patBind .. | patExtractor .. =>
    simp [WellTyped] at typed
termination_by pat.size + pat'.size
decreasing_by all_goals (simp only [size]; omega)

/-! ## The first case -/

/-- The pattern of a case matches the values with `β`, and its guard holds there. -/
def CaseTaken (S : Semantics Value) (ρ : Env Value) (vs : List Value) (case : Case × Pattern)
    (β : Bindings Value) : Prop :=
  β ∈ S.matchPat ρ case.2 vs ∧ S.guardHolds ρ case.1 β = true

/-- What a tree for the cases should evaluate to: the leaf of the first case in source order
that is taken, each variable of its pattern bound, or nothing if none is taken. -/
def FirstCase (S : Semantics Value) (ρ : Env Value) (cases : List (Case × Pattern))
    (vs : List Value) : Option (Case × Env Value) → Prop
  | none => ∀ case ∈ cases, ¬ ∃ β, CaseTaken S ρ vs case β
  | some (c, ρ') => ∃ before pat after β, cases = before ++ (c, pat) :: after ∧
      (∀ case ∈ before, ¬ ∃ β, CaseTaken S ρ vs case β) ∧ CaseTaken S ρ vs (c, pat) β ∧
        ∀ b ∈ β, ρ' b.1 = b.2

/-- No other case that is taken tests for `null` where the first case has a wildcard. -/
def CasesInOrder (S : Semantics Value) (ρ : Env Value) (cases : List (Case × Pattern))
    (vs : List Value) : Prop :=
  ∀ before first after, cases = before ++ first :: after →
    (∀ case ∈ before, ¬ ∃ β, CaseTaken S ρ vs case β) → (∃ β, CaseTaken S ρ vs first β) →
      ∀ case ∈ after, (∃ β, CaseTaken S ρ vs case β) → overtakenBy first.2 case.2 = false

/-- The rows of a case whose pattern is split into `split pat`. -/
def caseRows (split : Pattern → List (List Pattern)) (case : Case × Pattern) : List Row :=
  (split case.2).map fun patterns => ⟨case.1, [], patterns⟩

/-- A way to split the patterns of the cases into rows. -/
structure Splits (Value : Type) (sig : Signature Ty) (P : TVar → Prop) (n0 : Nat) (ts : List Ty)
    (cases : List (Case × Pattern)) (split : Pattern → List (List Pattern)) : Prop where
  matched : ∀ case ∈ cases, ∀ (S : Semantics Value) (ρ : Env Value) (vs : List Value),
    vs.length = ts.length →
      S.matchPat ρ case.2 vs = (split case.2).flatMap fun patterns => S.matchPats ρ patterns vs
  keep : ∀ case ∈ cases, ∀ patterns ∈ split case.2,
    sig.AllTyped ts patterns ∧ AllScoped P n0 patterns ∧ (patVars case.2).Perm (patsVars patterns)
  overtaken : ∀ case ∈ cases, ∀ patterns ∈ split case.2, ∀ case' ∈ cases,
    ∀ patterns' ∈ split case'.2, overtakenByAll patterns patterns' = true →
      overtakenBy case.2 case'.2 = true

theorem mem_caseRows {split : Pattern → List (List Pattern)} {cases : List (Case × Pattern)}
    {row : Row} : row ∈ cases.flatMap (caseRows split) ↔
      ∃ case ∈ cases, ∃ patterns ∈ split case.2, row = ⟨case.1, [], patterns⟩ := by
  simp [caseRows, List.mem_flatMap, eq_comm]

/-- A case is taken if one of its rows is. -/
theorem caseTaken_iff {ts : List Ty} {cases : List (Case × Pattern)}
    {split : Pattern → List (List Pattern)} (splits : Splits Value sig P n0 ts cases split)
    {case : Case × Pattern} (member : case ∈ cases) {vs : List Value}
    (width : vs.length = ts.length) {β : Bindings Value} :
    CaseTaken S ρ vs case β ↔ ∃ row ∈ caseRows split case, S.Taken ρ row vs β := by
  simp only [CaseTaken, splits.matched case member S ρ vs width, List.mem_flatMap, caseRows,
    List.mem_map, Taken, rowMatches, bound]
  constructor
  · rintro ⟨⟨patterns, inside, matched⟩, holds⟩
    exact ⟨_, ⟨patterns, inside, rfl⟩, ⟨β, matched, rfl⟩, holds⟩
  · rintro ⟨_, ⟨patterns, inside, rfl⟩, ⟨β', matched, rfl⟩, holds⟩
    exact ⟨⟨patterns, inside, matched⟩, holds⟩

/-- The first case that has a row that is taken. -/
theorem exists_first_case {split : Pattern → List (List Pattern)} {c : Case} {vs : List Value}
    {cases : List (Case × Pattern)} (first : First S ρ vs c (cases.flatMap (caseRows split))) :
    ∃ before pat after, cases = before ++ (c, pat) :: after ∧
      (∀ case ∈ before, ∀ row ∈ caseRows split case, ¬ IsTaken S ρ vs row) ∧
      ∃ row ∈ caseRows split (c, pat), IsTaken S ρ vs row := by
  induction cases with
  | nil => cases first
  | cons case cases ih =>
    rcases first_append.mp first with here | ⟨free, later⟩
    · obtain ⟨row, member, same, taken⟩ := here.exists_taken
      obtain ⟨patterns, -, rfl⟩ := List.mem_map.mp member
      obtain ⟨c', pat⟩ := case
      obtain rfl : c' = c := same
      exact ⟨[], pat, cases, rfl, by simp, _, member, taken⟩
    · obtain ⟨before, pat, after, rfl, none, taken⟩ := ih later
      refine ⟨case :: before, pat, after, rfl, ?_, taken⟩
      intro case' member
      rcases List.mem_cons.mp member with rfl | member
      · exact free
      · exact none case' member

/-- Cases are told apart by what their leaf holds. -/
theorem eq_of_distinct {cases : List (Case × Pattern)} (distinct : (cases.map Prod.fst).Nodup)
    {case case' : Case × Pattern} (member : case ∈ cases) (member' : case' ∈ cases)
    (same : case.1 = case'.1) : case = case' :=
  List.inj_on_of_nodup_map distinct member member' same

/-- Whether a case is taken, in terms of its rows. -/
theorem exists_caseTaken_iff {ts : List Ty} {cases : List (Case × Pattern)}
    {split : Pattern → List (List Pattern)} (splits : Splits Value sig P n0 ts cases split)
    {case : Case × Pattern} (member : case ∈ cases) {vs : List Value}
    (width : vs.length = ts.length) :
    (∃ β, CaseTaken S ρ vs case β) ↔ ∃ row ∈ caseRows split case, IsTaken S ρ vs row := by
  simp only [caseTaken_iff splits member width, IsTaken]
  constructor
  · rintro ⟨β, row, inside, taken⟩
    exact ⟨row, inside, β, taken⟩
  · rintro ⟨row, inside, β, taken⟩
    exact ⟨β, row, inside, taken⟩

section TopRows

variable {ts : List Ty} {cases : List (Case × Pattern)} {split : Pattern → List (List Pattern)}
variable (splits : Splits Value sig P n0 ts cases split)
variable (distinct : (cases.map Prod.fst).Nodup) {vs : List Value} (width : vs.length = ts.length)

include splits distinct width

theorem inOrder_of_cases (inOrder : CasesInOrder S ρ cases vs) :
    InOrder S ρ (cases.flatMap (caseRows split)) vs := by
  intro c isFirst first' member same taken row' member' other taken'
  obtain ⟨before, pat, after, split', none, takenRow⟩ := exists_first_case isFirst
  obtain ⟨case1, inside1, patterns1, split1, rfl⟩ := mem_caseRows.mp member
  obtain ⟨case, inside, patterns, isSplit, rfl⟩ := mem_caseRows.mp member'
  have firstMember : (c, pat) ∈ cases := split' ▸ by simp
  obtain rfl := eq_of_distinct distinct inside1 firstMember same
  have rowTaken : ∃ row ∈ caseRows split case, IsTaken S ρ vs row :=
    ⟨_, List.mem_map.mpr ⟨patterns, isSplit, rfl⟩, taken'⟩
  have later : case ∈ after := by
    rcases List.mem_append.mp (split' ▸ inside) with early | late
    · obtain ⟨row, member, taken⟩ := rowTaken
      exact absurd taken (none case early row member)
    · rcases List.mem_cons.mp late with rfl | late
      · exact absurd rfl other
      · exact late
  have ordered := inOrder before (c, pat) after split'
    (fun case early => (exists_caseTaken_iff splits (split' ▸ List.mem_append_left _ early)
      width).not.mpr (by simpa using none case early))
    ((exists_caseTaken_iff splits firstMember width).mpr takenRow) case later
    ((exists_caseTaken_iff splits inside width).mpr rowTaken)
  cases overtaken : overtakenByAll patterns1 patterns with
  | false => rfl
  | true =>
    rw [splits.overtaken _ firstMember patterns1 split1 case inside patterns isSplit overtaken]
      at ordered
    cases ordered

/-- What is right for the rows of the cases is right for the cases. -/
theorem firstCase_of_outcome {reached : Option (Case × Env Value)}
    (outcome : Outcome S P n ρ (cases.flatMap (caseRows split)) vs reached) :
    FirstCase S ρ cases vs reached := by
  cases reached with
  | none =>
    intro case member taken
    obtain ⟨row, inside, taken⟩ := (exists_caseTaken_iff splits member width).mp taken
    exact outcome row (List.mem_flatMap.mpr ⟨case, member, inside⟩) taken
  | some reached =>
    obtain ⟨c, ρ'⟩ := reached
    obtain ⟨first, -, row, member, same, β, taken, values⟩ := outcome
    obtain ⟨before, pat, after, split', none, -⟩ := exists_first_case first
    obtain ⟨case, inside, member⟩ := List.mem_flatMap.mp member
    have firstMember : (c, pat) ∈ cases := split' ▸ by simp
    obtain rfl : case = (c, pat) := by
      refine eq_of_distinct distinct inside firstMember ?_
      obtain ⟨patterns, -, rfl⟩ := List.mem_map.mp member
      exact same
    refine ⟨before, pat, after, β, split', fun case early => ?_,
      (caseTaken_iff splits firstMember width).mpr ⟨row, member, taken⟩, values⟩
    exact (exists_caseTaken_iff splits (split' ▸ List.mem_append_left _ early) width).not.mpr
      (by simpa using none case early)

end TopRows

/-! ## Well-formed input -/

/-- What `make` and the typer ensure about the cases. -/
structure CasesReady (sig : Signature Ty) (P : TVar → Prop) (n0 : Nat) (column : Column Ty)
    (cases : List (Case × Pattern)) : Prop where
  typed : ∀ case ∈ cases, sig.WellTyped column case.2
  inScope : ∀ case ∈ cases, case.2.Scoped P n0
  nodup : ∀ case ∈ cases, (patVars case.2).Nodup
  guard : ∀ case ∈ cases, ∀ g, case.1.caseGuard = some g →
    ∀ y ∈ g.vars, y < n0 ∧ (P y → y ∈ patVars case.2)
  distinct : (cases.map Prod.fst).Nodup

/-- The column that the subjects are matched in: their types, unless there is one subject. -/
inductive Column.Of : Column Ty → List (Subject Ty) → Prop
  | one (s : Subject Ty) : Column.Of (.one s.etype) [s]
  | tuple {subjects : List (Subject Ty)} : subjects ≠ [] →
      Column.Of (.tuple (subjects.map Subject.etype)) subjects

theorem columnOf_types {column : Column Ty} {subjects subjects' : List (Subject Ty)}
    (ofSubjects : Column.Of column subjects)
    (types : subjects'.map Subject.etype = subjects.map Subject.etype) :
    Column.Of column subjects' := by
  cases ofSubjects with
  | one s =>
    obtain ⟨s', rfl⟩ := List.length_eq_one_iff.mp (by simpa using congrArg List.length types)
    have same : s'.etype = s.etype := by simpa using types
    exact same ▸ .one s'
  | tuple some =>
    rw [← types]
    exact .tuple fun none => some (by simpa [none] using types.symm)

variable {column : Column Ty} {cases : List (Case × Pattern)} {subjects : List (Subject Ty)}

theorem splits_one {t : Ty} (ready : CasesReady sig P n0 (.one t) cases) :
    Splits Value sig P n0 [t] cases fun pat => [[pat]] where
  matched case _ _ _ vs width := by
    obtain ⟨v, rfl⟩ := List.length_eq_one_iff.mp width
    simp [matchPats]
  keep case member patterns inside := by
    obtain rfl := List.mem_singleton.mp inside
    exact ⟨allTyped_cons.mpr ⟨ready.typed case member, allTyped_nil.mpr rfl⟩,
      ⟨ready.inScope case member, trivial⟩, by simp [patsVars]⟩
  overtaken case _ patterns inside case' _ patterns' inside' overtaken := by
    obtain rfl := List.mem_singleton.mp inside
    obtain rfl := List.mem_singleton.mp inside'
    simpa [overtakenByAll] using overtaken

theorem splits_tuple {ts : List Ty} (ready : CasesReady sig P n0 (.tuple ts) cases) :
    Splits Value sig P n0 ts cases components where
  matched case member _ _ vs _ := matchPat_components (ready.typed case member) vs
  keep case member _ inside :=
    components_keep (ready.typed case member) (ready.inScope case member) inside
  overtaken case member _ inside case' member' _ inside' overtaken :=
    components_overtaken (ready.typed case member) (ready.typed case' member') inside inside'
      overtaken

theorem caseRows_inScope {ts : List Ty} {split : Pattern → List (List Pattern)}
    (ready : CasesReady sig P n0 column cases) (n : Nat)
    (splits : Splits Value sig P n0 ts cases split) {row : Row}
    (member : row ∈ cases.flatMap (caseRows split)) : RowScoped P n0 n row := by
  obtain ⟨case, inside, patterns, isSplit, rfl⟩ := mem_caseRows.mp member
  obtain ⟨-, scopes, vars⟩ := splits.keep case inside patterns isSplit
  refine ⟨by simp, scopes, ?_, fun g guarded y read => ?_⟩
  · simpa [rowVars] using vars.nodup_iff.mp (ready.nodup case inside)
  · obtain ⟨bounded, covered⟩ := ready.guard case inside g guarded y read
    exact ⟨bounded, fun isP => by simpa [rowVars] using vars.mem_iff.mp (covered isP)⟩

/-- The rows of well-formed cases are ready to be compiled. -/
theorem ready_caseRows {split : Pattern → List (List Pattern)}
    (ready : CasesReady sig P n0 column cases) (le : n0 ≤ n) (patternVars : ∀ y, P y → y < n0)
    (below : ∀ y < n0, ¬ P y → Γ y = sig.vtype y)
    (typed : ∀ s ∈ subjects, sig.etype Γ s.expr = s.etype)
    (free : ∀ s ∈ subjects, ∀ y ∈ s.expr.vars, y < n ∧ ¬ P y)
    (splits : Splits Value sig P n0 (subjects.map Subject.etype) cases split) :
    Ready sig P n0 n Γ subjects (cases.flatMap (caseRows split)) where
  le := le
  patternVars := patternVars
  below := below
  typed := typed
  free := free
  rowTyped row member := by
    obtain ⟨case, inside, patterns, isSplit, rfl⟩ := mem_caseRows.mp member
    exact (splits.keep case inside patterns isSplit).1
  inScope _ member := caseRows_inScope ready n splits member

/-- `compile` at the top, on rows of one pattern each. -/
theorem compileRows_correct (uniform : ctx.sig.UniformFields) (disjoint : S.Disjoint ctx.sig)
    (ofSubjects : Column.Of column subjects) (ready : CasesReady ctx.sig P n0 column cases)
    (le : n0 ≤ n) (patternVars : ∀ y, P y → y < n0)
    (below : ∀ y < n0, ¬ P y → Γ y = ctx.sig.vtype y)
    (typed : ∀ s ∈ subjects, ctx.sig.etype Γ s.expr = s.etype)
    (free : ∀ s ∈ subjects, ∀ y ∈ s.expr.vars, y < n ∧ ¬ P y) :
    ∃ split, Splits Value ctx.sig P n0 (subjects.map Subject.etype) cases split ∧
      Correct S P n subjects (cases.flatMap (caseRows split))
        (compile ctx n subjects (cases.map fun (case, pat) => ⟨case, [], [pat]⟩)) := by
  cases ofSubjects with
  | one s =>
    have splits : Splits Value ctx.sig P n0 [s.etype] cases fun pat => [[pat]] := splits_one ready
    have rowsReady : Ready ctx.sig P n0 n Γ [s] _ :=
      ready_caseRows ready le patternVars below typed free splits
    have rows : (cases.map fun (case, pat) => (⟨case, [], [pat]⟩ : Row)) =
        cases.flatMap (caseRows fun pat => [[pat]]) := by
      rw [List.map_eq_flatMap]
      rfl
    rw [rows]
    exact ⟨_, splits, compile_correct uniform disjoint n Γ [s] _ rowsReady⟩
  | tuple some =>
    have splits : Splits Value ctx.sig P n0 _ cases components := splits_tuple ready
    have rowsReady := ready_caseRows ready le patternVars below typed free splits
    refine ⟨_, splits, ?_⟩
    have expanded : expand (cases.map fun (case, pat) => (⟨case, [], [pat]⟩ : Row)) =
        expand (cases.flatMap (caseRows components)) := by
      simp [expand, caseRows, List.flatMap_map, List.flatMap_assoc, expandRow_components]
    have samePrepare : prepare subjects (cases.map fun (case, pat) => (⟨case, [], [pat]⟩ : Row)) =
        prepare subjects (cases.flatMap (caseRows components)) := by rw [prepare, prepare, expanded]
    cases cases with
    | nil => exact compile_correct uniform disjoint n Γ subjects [] rowsReady
    | cons case cases =>
      obtain ⟨s, ss, rfl⟩ := List.exists_cons_of_ne_nil some
      obtain ⟨subject, subjects', rows', prepared, ready', known, transfer⟩ :=
        prepare_ready (S := S) rowsReady
      refine transfer _ (compile_prepared_correct uniform disjoint ?_ (samePrepare.trans prepared)
        (fun n Γ subjects rows _ ready => compile_correct uniform disjoint n Γ subjects rows ready)
        ready' known)
      have tuple := ready.typed case List.mem_cons_self
      obtain ⟨c, pat⟩ := case
      cases pat <;> simp_all [isWildcardPattern, WellTyped]

end Haxe.Source.Typing.Compile
