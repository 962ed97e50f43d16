import Haxe.Source.Typing.FirstMatch

/-!
# Transformations of rows

A transformation replaces each row by rows for the same case that together have the
same matches. It keeps the first row that is taken. It also keeps rows in order with
respect to `null`: no row that is taken tests for `null` where the first one has a
wildcard, as such a row may overtake the first.
-/

namespace Haxe.Source.Typing.Semantics
open Pattern Compile Constructor

variable {Value : Type} {S : Semantics Value} {P : TVar → Prop} {n n' n0 : Nat}
variable {ρ ρ' : Env Value} {vs vs' : List Value}

/-- `rows'` on `vs'` has the matches of `row` on `vs`, up to the order of the bindings. -/
structure Refines (S : Semantics Value) (ρ : Env Value) (rows' : List Row) (vs' : List Value)
    (row : Row) (vs : List Value) : Prop where
  case : ∀ row' ∈ rows', row'.case = row.case
  sound : ∀ row' ∈ rows', ∀ β' ∈ S.rowMatches ρ row' vs', ∃ β ∈ S.rowMatches ρ row vs, β.Perm β'
  complete : ∀ β ∈ S.rowMatches ρ row vs, ∃ row' ∈ rows', ∃ β' ∈ S.rowMatches ρ row' vs', β.Perm β'

theorem guardHolds_perm {case : Case} {β β' : Bindings Value} (perm : β.Perm β')
    (nodup : (β.map Prod.fst).Nodup) : S.guardHolds ρ case β = S.guardHolds ρ case β' := by
  simp [guardHolds, extend_perm perm nodup]

theorem nodup_keys {row : Row} (inScope : RowScoped P n0 n row) {β : Bindings Value}
    (matched : β ∈ S.rowMatches ρ row vs) : (β.map Prod.fst).Nodup :=
  (keys_rowMatches inScope matched).nodup_iff.mpr inScope.nodup

theorem Refines.taken_of {rows' : List Row} {row : Row} (refines : Refines S ρ rows' vs' row vs)
    (inScope : RowScoped P n0 n row) {row' : Row} (member : row' ∈ rows') {β' : Bindings Value}
    (taken : S.Taken ρ row' vs' β') : ∃ β, S.Taken ρ row vs β ∧ β.Perm β' := by
  obtain ⟨β, matched, perm⟩ := refines.sound row' member β' taken.1
  refine ⟨β, ⟨matched, ?_⟩, perm⟩
  rw [guardHolds_perm perm (nodup_keys inScope matched), ← refines.case row' member]
  exact taken.2

theorem Refines.taken_to {rows' : List Row} {row : Row} (refines : Refines S ρ rows' vs' row vs)
    (inScope : RowScoped P n0 n row) {β : Bindings Value} (taken : S.Taken ρ row vs β) :
    ∃ row' ∈ rows', IsTaken S ρ vs' row' := by
  obtain ⟨row', member, β', matched, perm⟩ := refines.complete β taken.1
  refine ⟨row', member, β', matched, ?_⟩
  rw [← guardHolds_perm perm (nodup_keys inScope taken.1), refines.case row' member]
  exact taken.2

/-- A transformation keeps the first case that is taken. -/
theorem first_flatMap {g : Row → List Row} {rows : List Row} {c : Case}
    (refines : ∀ row ∈ rows, Refines S ρ (g row) vs' row vs)
    (inScope : ∀ row ∈ rows, RowScoped P n0 n row) :
    First S ρ vs' c (rows.flatMap g) ↔ First S ρ vs c rows := by
  induction rows with
  | nil =>
    constructor <;> intro first <;> cases first
  | cons row rows ih =>
    have head := refines row List.mem_cons_self
    have headScope := inScope row List.mem_cons_self
    have tail := ih (fun row member => refines row (.tail _ member))
      fun row member => inScope row (.tail _ member)
    rw [List.flatMap_cons, first_append, tail]
    constructor
    · rintro (first | ⟨free, first⟩)
      · obtain ⟨row', member, same, β', taken⟩ := first.exists_taken
        obtain ⟨β, taken, -⟩ := head.taken_of headScope member taken
        exact .here ((head.case row' member).symm.trans same) ⟨β, taken⟩
      · refine .later (fun ⟨β, taken⟩ => ?_) first
        obtain ⟨row', member, taken'⟩ := head.taken_to headScope taken
        exact free row' member taken'
    · intro first
      cases first with
      | here same taken =>
        obtain ⟨β, taken⟩ := taken
        obtain ⟨row', member, taken'⟩ := head.taken_to headScope taken
        exact .inl (first_of_same_case
          (fun row member => (head.case row member).trans same) member taken')
      | later free first =>
        refine .inr ⟨fun row' member ⟨β', taken⟩ => free ?_, first⟩
        obtain ⟨β, taken, -⟩ := head.taken_of headScope member taken
        exact ⟨β, taken⟩

/-- What a tree may evaluate to for the new rows, it may for the old ones. -/
theorem outcome_flatMap {g : Row → List Row} {rows : List Row}
    (refines : ∀ row ∈ rows, Refines S ρ (g row) vs' row vs)
    (inScope : ∀ row ∈ rows, RowScoped P n0 n row) {reached : Option (Case × Env Value)}
    (outcome : Outcome S P n ρ (rows.flatMap g) vs' reached) :
    Outcome S P n ρ rows vs reached := by
  cases reached with
  | none =>
    intro row member ⟨β, taken⟩
    obtain ⟨row', member', taken'⟩ := (refines row member).taken_to (inScope row member) taken
    exact outcome row' (List.mem_flatMap.mpr ⟨row, member, member'⟩) taken'
  | some reached =>
    obtain ⟨first, agree, row', member', same, β', taken, values⟩ := outcome
    obtain ⟨row, member, inner⟩ := List.mem_flatMap.mp member'
    obtain ⟨β, taken, perm⟩ := (refines row member).taken_of (inScope row member) inner taken
    exact ⟨(first_flatMap refines inScope).mp first, agree, row, member,
      ((refines row member).case row' inner).symm.trans same, β, taken,
      fun b inside => values b (perm.mem_iff.mp inside)⟩

end Haxe.Source.Typing.Semantics

/-! ## Null tests -/

namespace Haxe.Source.Typing.Pattern
open Compile Constructor

mutual

/-- A test for `null` somewhere in the pattern. -/
@[grind =] def hasNull : Pattern → Bool
  | patConstructor con patterns _ => con = conConst .tNull || hasNulls patterns
  | patVariable _ _ => false
  | patAny _ => false
  | patBind _ pat _ => hasNull pat
  | patOr pat1 pat2 _ => hasNull pat1 || hasNull pat2
  | patTuple patterns _ => hasNulls patterns
  | patExtractor _ _ pat _ => hasNull pat

@[grind =] def hasNulls : List Pattern → Bool
  | [] => false
  | pat :: pats => hasNull pat || hasNulls pats

end

mutual

/-- The second pattern tests for `null` at a place where the first has a wildcard. The
result of an extractor is such a place for every other pattern. -/
@[grind =] def overtakenBy : Pattern → Pattern → Bool
  | patVariable _ _, pat' => hasNull pat'
  | patAny _, pat' => hasNull pat'
  | patExtractor _ _ _ _, pat' => hasNull pat'
  | patBind _ pat _, pat' => overtakenBy pat pat'
  | patOr pat1 pat2 _, pat' => overtakenBy pat1 pat' || overtakenBy pat2 pat'
  | pat, patBind _ pat' _ => overtakenBy pat pat'
  | pat, patOr pat1 pat2 _ => overtakenBy pat pat1 || overtakenBy pat pat2
  | _, patExtractor _ _ pat' _ => hasNull pat'
  | patConstructor _ patterns _, patConstructor _ patterns' _ => overtakenByAll patterns patterns'
  | patTuple patterns _, patTuple patterns' _ => overtakenByAll patterns patterns'
  | _, _ => false
termination_by pat pat' => (pat.size + pat'.size, 0)
decreasing_by all_goals (simp only [size]; omega)

@[grind =] def overtakenByAll : List Pattern → List Pattern → Bool
  | pat :: pats, pat' :: pats' => overtakenBy pat pat' || overtakenByAll pats pats'
  | _, _ => false
termination_by pats pats' => (sizes pats + sizes pats', 1)
decreasing_by
  · exact Prod.Lex.right' _ (by simp only [sizes]; omega) (by omega)
  · have := size_pos pat
    exact .left _ _ (by simp only [sizes]; omega)

end

theorem hasNull_of_overtakenBy :
    (∀ pat pat', overtakenBy pat pat' = true → hasNull pat' = true) ∧
      ∀ pats pats', overtakenByAll pats pats' = true → hasNulls pats' = true := by
  apply overtakenBy.mutual_induct <;> intros <;>
    simp_all [overtakenBy, overtakenByAll, hasNull, hasNulls] <;> grind

end Haxe.Source.Typing.Pattern

namespace Haxe.Source.Typing.Semantics
open Pattern Compile

variable {Value : Type} {S : Semantics Value} {P : TVar → Prop} {n n0 : Nat}
variable {ρ ρ' : Env Value} {vs vs' : List Value}

/-- No row for another case that is taken tests for `null` where a row of the first case
that is taken has a wildcard. -/
def InOrder (S : Semantics Value) (ρ : Env Value) (rows : List Row) (vs : List Value) : Prop :=
  ∀ c, First S ρ vs c rows →
    ∀ first ∈ rows, first.case = c → IsTaken S ρ vs first →
      ∀ row ∈ rows, row.case ≠ c → IsTaken S ρ vs row →
        overtakenByAll first.patterns row.patterns = false

/-- The transformation makes no row overtake another one. -/
def KeepsOrder (g : Row → List Row) (rows : List Row) : Prop :=
  ∀ first ∈ rows, ∀ first' ∈ g first, ∀ row ∈ rows, ∀ row' ∈ g row,
    overtakenByAll first'.patterns row'.patterns = true →
      overtakenByAll first.patterns row.patterns = true

theorem inOrder_flatMap {g : Row → List Row} {rows : List Row}
    (refines : ∀ row ∈ rows, Refines S ρ (g row) vs' row vs)
    (inScope : ∀ row ∈ rows, RowScoped P n0 n row)
    (overtakes : KeepsOrder g rows)
    (inOrder : InOrder S ρ rows vs) : InOrder S ρ (rows.flatMap g) vs' := by
  intro c isFirst first' firstMember same taken row' rowMember other rowTaken
  obtain ⟨first, member, inner⟩ := List.mem_flatMap.mp firstMember
  obtain ⟨row, member', inner'⟩ := List.mem_flatMap.mp rowMember
  obtain ⟨β', taken⟩ := taken
  obtain ⟨β, taken, -⟩ := (refines first member).taken_of (inScope first member) inner taken
  obtain ⟨μ', rowTaken⟩ := rowTaken
  obtain ⟨μ, rowTaken, -⟩ := (refines row member').taken_of (inScope row member') inner' rowTaken
  have ordered := inOrder c ((first_flatMap refines inScope).mp isFirst) first member
    (((refines first member).case first' inner).symm.trans same) ⟨β, taken⟩ row member'
    (by rwa [← (refines row member').case row' inner']) ⟨μ, rowTaken⟩
  cases overtaken : overtakenByAll first'.patterns row'.patterns with
  | false => rfl
  | true => simp [overtakes first member first' inner row member' row' inner' overtaken] at ordered

/-- The order of rows, and whether they are taken, do not depend on the variables of
patterns. -/
theorem isTaken_agree {row : Row} (inScope : RowScoped P n0 n row) (le : n0 ≤ n)
    (agree : Agree P n ρ ρ') : IsTaken S ρ vs row ↔ IsTaken S ρ' vs row :=
  exists_congr fun _ => taken_agree inScope le agree

theorem first_agree {rows : List Row} (inScope : ∀ row ∈ rows, RowScoped P n0 n row) (le : n0 ≤ n)
    (agree : Agree P n ρ ρ') {c : Case} : First S ρ vs c rows ↔ First S ρ' vs c rows := by
  induction rows with
  | nil => constructor <;> intro first <;> cases first
  | cons row rows ih =>
    have head : IsTaken S ρ vs row ↔ IsTaken S ρ' vs row :=
      isTaken_agree (inScope row List.mem_cons_self) le agree
    have tail := ih fun row member => inScope row (.tail _ member)
    constructor
    · intro first
      cases first with
      | here same taken => exact .here same (head.mp taken)
      | later free first => exact .later (mt head.mpr free) (tail.mp first)
    · intro first
      cases first with
      | here same taken => exact .here same (head.mpr taken)
      | later free first => exact .later (mt head.mp free) (tail.mpr first)

theorem inOrder_agree {rows : List Row} (inScope : ∀ row ∈ rows, RowScoped P n0 n row)
    (le : n0 ≤ n) (agree : Agree P n ρ ρ') (inOrder : InOrder S ρ rows vs) :
    InOrder S ρ' rows vs := by
  intro c isFirst first member same taken row member' other rowTaken
  exact inOrder c ((first_agree inScope le agree).mpr isFirst) first member same
    ((isTaken_agree (inScope first member) le agree).mpr taken) row member' other
    ((isTaken_agree (inScope row member') le agree).mpr rowTaken)

theorem outcome_agree {rows : List Row} (inScope : ∀ row ∈ rows, RowScoped P n0 n row)
    (le : n0 ≤ n) (agree : Agree P n ρ ρ') {reached : Option (Case × Env Value)}
    (outcome : Outcome S P n ρ' rows vs reached) : Outcome S P n ρ rows vs reached := by
  cases reached with
  | none => exact fun row member taken =>
      outcome row member ((isTaken_agree (inScope row member) le agree).mp taken)
  | some reached =>
    obtain ⟨first, agree', row, member, same, β, taken, values⟩ := outcome
    exact ⟨(first_agree inScope le agree).mpr first, agree.trans agree', row, member, same, β,
      (taken_agree (inScope row member) le agree).mpr taken, values⟩

end Haxe.Source.Typing.Semantics

/-!
## Expanding and permuting rows

`expand` replaces the head of a row by its alternatives, and `select_column` permutes
columns and subjects alike. Both keep the matches.
-/

namespace Haxe.Source.Typing.Compile
open Pattern Semantics Signature

variable {Value Ty : Type} {S : Semantics Value} {P : TVar → Prop} {n n0 : Nat}
variable {ρ : Env Value} {sig : Signature Ty}

/-- The alternatives of a pattern, each under the binds around it. -/
@[grind =] def alternatives : Pattern → List Pattern
  | patOr pat1 pat2 _ => alternatives pat1 ++ alternatives pat2
  | patBind v pat p => (alternatives pat).map (patBind v · p)
  | pat => [pat]

theorem expandRow_eq {f : Pattern → Pattern} {case : Case} {bindings : List (TVar × Texpr)}
    {pat : Pattern} {rest : List Pattern} {t : Ty} (typed : sig.WellTyped (.one t) pat) :
    expandRow f case bindings (pat :: rest) =
      (alternatives pat).map fun pat' => ⟨case, bindings, f pat' :: rest⟩ := by
  match pat with
  | patOr pat1 pat2 p =>
    rw [wellTyped_or] at typed
    simp [expandRow, alternatives, expandRow_eq typed.1, expandRow_eq typed.2]
  | patBind v pat p =>
    rw [wellTyped_bind] at typed
    simp [expandRow, alternatives, expandRow_eq typed, Function.comp_def]
  | patTuple patterns p => simp [Signature.WellTyped] at typed
  | patConstructor .. | patVariable .. | patAny _ | patExtractor .. => simp [expandRow, alternatives]

theorem matchPat_alternatives (pat : Pattern) (v : Value) :
    S.matchPat ρ pat [v] = (alternatives pat).flatMap fun pat' => S.matchPat ρ pat' [v] := by
  match pat with
  | patOr pat1 pat2 p =>
    simp [matchPat, alternatives, matchPat_alternatives pat1 v, matchPat_alternatives pat2 v]
  | patBind x pat p =>
    simp [matchPat, alternatives, matchPat_alternatives pat v, List.flatMap_map, List.map_flatMap]
  | patConstructor .. | patVariable .. | patAny _ | patExtractor .. | patTuple .. =>
    simp [alternatives]

/-- What an alternative shares with its pattern. -/
theorem alternatives_spec {pat pat' : Pattern} (member : pat' ∈ alternatives pat) :
    (pat.Scoped P n0 → pat'.Scoped P n0 ∧ (patVars pat).Perm (patVars pat')) ∧
      (∀ t, sig.WellTyped (.one t) pat → sig.WellTyped (.one t) pat') := by
  match pat with
  | patOr pat1 pat2 p =>
    rcases List.mem_append.mp member with member | member
    · obtain ⟨scopes, types⟩ := alternatives_spec member
      refine ⟨fun inScope => ?_, fun t typed => types t (wellTyped_or.mp typed).1⟩
      simp only [Scoped] at inScope
      exact scopes inScope.2.1
    · obtain ⟨scopes, types⟩ := alternatives_spec member
      refine ⟨fun inScope => ?_, fun t typed => types t (wellTyped_or.mp typed).2⟩
      simp only [Scoped] at inScope
      exact ⟨(scopes inScope.2.2).1, inScope.1.trans (scopes inScope.2.2).2⟩
  | patBind x pat p =>
    obtain ⟨inner, innerMember, rfl⟩ := List.mem_map.mp member
    obtain ⟨scopes, types⟩ := alternatives_spec innerMember
    refine ⟨fun inScope => ?_, fun t typed => ?_⟩
    · simp only [Scoped] at inScope
      simpa [Scoped, patVars, inScope.1] using scopes inScope.2
    · exact wellTyped_bind.mpr (types t (wellTyped_bind.mp typed))
  | patConstructor .. | patVariable .. | patAny _ | patExtractor .. | patTuple .. =>
    obtain rfl := List.mem_singleton.mp member
    exact ⟨fun inScope => ⟨inScope, .refl _⟩, fun t typed => typed⟩

/-- After expanding, the head of a row is none of the patterns that are expanded. -/
theorem head_alternatives {pat pat' : Pattern} {t : Ty} (typed : sig.WellTyped (.one t) pat)
    (member : pat' ∈ alternatives pat) (subject : Texpr) (bindings : List (TVar × Texpr)) :
    head subject bindings pat' ≠ .unexpected := by
  match pat with
  | patOr pat1 pat2 p =>
    rcases List.mem_append.mp member with member | member
    · exact head_alternatives (wellTyped_or.mp typed).1 member subject bindings
    · exact head_alternatives (wellTyped_or.mp typed).2 member subject bindings
  | patBind x pat p =>
    obtain ⟨inner, innerMember, rfl⟩ := List.mem_map.mp member
    simpa [head] using head_alternatives (wellTyped_bind.mp typed) innerMember subject _
  | patTuple patterns p => simp [WellTyped] at typed
  | patConstructor con patterns p =>
    obtain rfl := List.mem_singleton.mp member
    rcases con with (_ | _ | _ | _ | _ | _ | _) | _ | _ | _ | _ | _ <;> simp [head]
  | patVariable .. | patAny _ | patExtractor .. =>
    obtain rfl := List.mem_singleton.mp member
    simp [head]

theorem overtakenBy_bind_right (pat : Pattern) (v : TVar) (pat' : Pattern) (p : Pos) :
    overtakenBy pat (patBind v pat' p) = overtakenBy pat pat' := by
  match pat with
  | patBind x pat q => simpa [overtakenBy] using overtakenBy_bind_right pat v pat' p
  | patOr pat1 pat2 q =>
    simp [overtakenBy, overtakenBy_bind_right pat1 v pat' p, overtakenBy_bind_right pat2 v pat' p]
  | patConstructor .. | patVariable .. | patAny _ | patExtractor .. | patTuple .. =>
    simp [overtakenBy, hasNull]

theorem overtakenBy_or_right (pat pat1 pat2 : Pattern) (p : Pos) :
    overtakenBy pat (patOr pat1 pat2 p) = (overtakenBy pat pat1 || overtakenBy pat pat2) := by
  match pat with
  | patBind x pat q => simpa [overtakenBy] using overtakenBy_or_right pat pat1 pat2 p
  | patOr first second q =>
    simp [overtakenBy, overtakenBy_or_right first pat1 pat2 p,
      overtakenBy_or_right second pat1 pat2 p, Bool.or_assoc, Bool.or_left_comm]
  | patConstructor .. | patVariable .. | patAny _ | patExtractor .. | patTuple .. =>
    simp [overtakenBy, hasNull]

theorem overtakenBy_alternatives_left {pat pat1 pat' : Pattern} (member : pat1 ∈ alternatives pat)
    (overtaken : overtakenBy pat1 pat' = true) : overtakenBy pat pat' = true := by
  match pat with
  | patOr first second p =>
    simp only [overtakenBy, Bool.or_eq_true]
    rcases List.mem_append.mp member with member | member
    · exact .inl (overtakenBy_alternatives_left member overtaken)
    · exact .inr (overtakenBy_alternatives_left member overtaken)
  | patBind x pat p =>
    obtain ⟨inner, innerMember, rfl⟩ := List.mem_map.mp member
    simp only [overtakenBy] at overtaken ⊢
    exact overtakenBy_alternatives_left innerMember overtaken
  | patConstructor .. | patVariable .. | patAny _ | patExtractor .. | patTuple .. =>
    obtain rfl := List.mem_singleton.mp member
    exact overtaken

theorem overtakenBy_alternatives_right {pat pat1 pat' : Pattern}
    (member : pat1 ∈ alternatives pat') (overtaken : overtakenBy pat pat1 = true) :
    overtakenBy pat pat' = true := by
  match pat' with
  | patOr first second p =>
    rw [overtakenBy_or_right, Bool.or_eq_true]
    rcases List.mem_append.mp member with member | member
    · exact .inl (overtakenBy_alternatives_right member overtaken)
    · exact .inr (overtakenBy_alternatives_right member overtaken)
  | patBind x pat' p =>
    obtain ⟨inner, innerMember, rfl⟩ := List.mem_map.mp member
    rw [overtakenBy_bind_right] at overtaken ⊢
    exact overtakenBy_alternatives_right innerMember overtaken
  | patConstructor .. | patVariable .. | patAny _ | patExtractor .. | patTuple .. =>
    obtain rfl := List.mem_singleton.mp member
    exact overtaken

/-! ## `expand` -/

/-- The rows that `expand` makes of a row. -/
def expandedRows (row : Row) : List Row := expandRow id row.case row.bindings row.patterns

theorem mem_expandedRows {case : Case} {bindings : List (TVar × Texpr)} {pat : Pattern}
    {rest : List Pattern} {row' : Row} {t : Ty} (typed : sig.WellTyped (.one t) pat) :
    row' ∈ expandedRows ⟨case, bindings, pat :: rest⟩ ↔
      ∃ pat' ∈ alternatives pat, row' = ⟨case, bindings, pat' :: rest⟩ := by
  simp [expandedRows, expandRow_eq typed, eq_comm]

theorem expandedRows_refines {row : Row} {t : Ty} {ts : List Ty}
    (typed : sig.AllTyped (t :: ts) row.patterns) (vs : List Value) :
    Refines S ρ (expandedRows row) vs row vs := by
  rcases row with ⟨case, bindings, _ | ⟨pat, rest⟩⟩
  · simp at typed
  have headTyped := (allTyped_cons.mp typed).1
  have split : ∀ μ, μ ∈ S.matchPats ρ (pat :: rest) vs ↔
      ∃ pat' ∈ alternatives pat, μ ∈ S.matchPats ρ (pat' :: rest) vs := by
    intro μ
    cases vs with
    | nil => simp [matchPats]
    | cons v vs =>
      simp only [matchPats, product, matchPat_alternatives pat v, List.mem_flatMap, List.mem_map]
      constructor
      · rintro ⟨first, ⟨pat', member, firstMatched⟩, second, rest⟩
        exact ⟨pat', member, first, firstMatched, second, rest⟩
      · rintro ⟨pat', member, first, firstMatched, second, rest⟩
        exact ⟨first, ⟨pat', member, firstMatched⟩, second, rest⟩
  refine ⟨?_, ?_, ?_⟩
  · intro row' member
    obtain ⟨pat', -, rfl⟩ := (mem_expandedRows headTyped).mp member
    rfl
  · intro row' member β' matched
    obtain ⟨pat', inside, rfl⟩ := (mem_expandedRows headTyped).mp member
    obtain ⟨μ, inner, rfl⟩ := List.mem_map.mp matched
    exact ⟨_, List.mem_map.mpr ⟨μ, (split μ).mpr ⟨pat', inside, inner⟩, rfl⟩, .refl _⟩
  · intro β matched
    obtain ⟨μ, inner, rfl⟩ := List.mem_map.mp matched
    obtain ⟨pat', inside, inner⟩ := (split μ).mp inner
    exact ⟨_, (mem_expandedRows headTyped).mpr ⟨pat', inside, rfl⟩, _,
      List.mem_map.mpr ⟨μ, inner, rfl⟩, .refl _⟩

/-- Expanded rows stay typed and in scope. -/
theorem expandedRows_keep {row row' : Row} {t : Ty} {ts : List Ty}
    (typed : sig.AllTyped (t :: ts) row.patterns) (inScope : RowScoped P n0 n row)
    (member : row' ∈ expandedRows row) :
    sig.AllTyped (t :: ts) row'.patterns ∧ RowScoped P n0 n row' := by
  rcases row with ⟨case, bindings, _ | ⟨pat, rest⟩⟩
  · simp at typed
  obtain ⟨headTyped, restTyped⟩ := allTyped_cons.mp typed
  obtain ⟨pat', inside, rfl⟩ := (mem_expandedRows headTyped).mp member
  obtain ⟨scopes, types⟩ : (pat.Scoped P n0 → _) ∧ ∀ t, sig.WellTyped (.one t) pat → _ :=
    alternatives_spec inside
  have patterns := inScope.patterns
  simp only [AllScoped] at patterns
  obtain ⟨headScope, vars⟩ := scopes patterns.1
  have perm : (rowVars ⟨case, bindings, pat :: rest⟩).Perm
      (rowVars ⟨case, bindings, pat' :: rest⟩) := by
    simpa [rowVars, patsVars] using ((vars.append_right (patsVars rest)).append_left _)
  refine ⟨allTyped_cons.mpr ⟨types t headTyped, restTyped⟩, ⟨inScope.bindings, ?_, ?_, ?_⟩⟩
  · exact ⟨headScope, patterns.2⟩
  · exact perm.nodup_iff.mp inScope.nodup
  · exact fun g guarded y inside => ⟨(inScope.guard g guarded y inside).1,
      fun isP => perm.mem_iff.mp ((inScope.guard g guarded y inside).2 isP)⟩

theorem expandedRows_overtaken {first first' row row' : Row} {t : Ty} {ts : List Ty}
    (firstTyped : sig.AllTyped (t :: ts) first.patterns) (firstMember : first' ∈ expandedRows first)
    (typed : sig.AllTyped (t :: ts) row.patterns) (member : row' ∈ expandedRows row)
    (overtaken : overtakenByAll first'.patterns row'.patterns = true) :
    overtakenByAll first.patterns row.patterns = true := by
  rcases first with ⟨case1, bindings1, _ | ⟨pat1, rest1⟩⟩
  · simp at firstTyped
  rcases row with ⟨case, bindings, _ | ⟨pat, rest⟩⟩
  · simp at typed
  obtain ⟨pat1', inside1, rfl⟩ := (mem_expandedRows (allTyped_cons.mp firstTyped).1).mp firstMember
  obtain ⟨pat', inside, rfl⟩ := (mem_expandedRows (allTyped_cons.mp typed).1).mp member
  simp only [overtakenByAll, Bool.or_eq_true] at overtaken ⊢
  exact overtaken.imp_left fun overtaken =>
    overtakenBy_alternatives_left inside1 (overtakenBy_alternatives_right inside overtaken)

/-! ## `select_column` -/

theorem sort_zip {α β : Type} (i cur : Nat) (acc l : List α) (acc' l' : List β)
    (accLen : acc.length = acc'.length) (len : l.length = l'.length) :
    sort i cur (acc.zip acc') (l.zip l') = (sort i cur acc l).zip (sort i cur acc' l') := by
  induction l generalizing cur acc acc' l' with
  | nil =>
    obtain rfl : l' = [] := List.length_eq_zero_iff.mp len.symm
    simp [sort]
  | cons x l ih =>
    cases l' with
    | nil => simp at len
    | cons x' l' =>
      by_cases found : i = cur
      · simp [sort, found, List.zip_append accLen]
      · have rest := ih (cur + 1) (x :: acc) (x' :: acc') l' (by simp [accLen])
          (by simpa using len)
        simpa [sort, found] using rest

theorem zip_sort_perm {α β : Type} (i : Nat) (l : List α) (l' : List β)
    (len : l.length = l'.length) :
    (l.zip l').Perm ((sort i 0 [] l).zip (sort i 0 [] l')) := by
  have perm := sort_perm i 0 [] (l.zip l')
  have zipped := sort_zip i 0 [] l [] l' rfl len
  rw [List.zip_nil_left] at zipped
  rw [zipped] at perm
  simpa using perm.symm

/-- `matchPats` on pairs of a pattern and its value. -/
@[grind =] def matchPairs (S : Semantics Value) (ρ : Env Value) : List (Pattern × Value) →
    List (Bindings Value)
  | [] => [[]]
  | (pat, v) :: pairs => product (S.matchPat ρ pat [v]) (matchPairs S ρ pairs)

theorem matchPats_eq_matchPairs (pats : List Pattern) (vs : List Value)
    (len : pats.length = vs.length) : S.matchPats ρ pats vs = matchPairs S ρ (pats.zip vs) := by
  induction pats generalizing vs with
  | nil =>
    obtain rfl : vs = [] := List.length_eq_zero_iff.mp len.symm
    simp [matchPats, matchPairs]
  | cons pat pats ih =>
    cases vs with
    | nil => simp at len
    | cons v vs => simp [matchPats, matchPairs, ih vs (by simpa using len)]

theorem mem_product {first second : List (Bindings Value)} {β : Bindings Value} :
    β ∈ product first second ↔ ∃ β1 ∈ first, ∃ β2 ∈ second, β1 ++ β2 = β := by
  simp [product]

theorem matchPairs_perm {pairs pairs' : List (Pattern × Value)} (perm : pairs.Perm pairs')
    {β : Bindings Value} (matched : β ∈ matchPairs S ρ pairs) :
    ∃ β' ∈ matchPairs S ρ pairs', β.Perm β' := by
  induction perm generalizing β with
  | nil => exact ⟨β, matched, .refl _⟩
  | cons pair _ ih =>
    obtain ⟨β1, first, β2, second, rfl⟩ := mem_product.mp matched
    obtain ⟨β2', second', same⟩ := ih second
    exact ⟨β1 ++ β2', mem_product.mpr ⟨β1, first, β2', second', rfl⟩, same.append_left β1⟩
  | swap pair pair' pairs =>
    obtain ⟨β1, first, β23, rest, rfl⟩ := mem_product.mp matched
    obtain ⟨β2, second, β3, third, rfl⟩ := mem_product.mp rest
    refine ⟨β2 ++ (β1 ++ β3), mem_product.mpr ⟨β2, second, _, mem_product.mpr
      ⟨β1, first, β3, third, rfl⟩, rfl⟩, ?_⟩
    simpa [List.append_assoc] using List.perm_append_comm.append_right β3
  | trans _ _ ih ih' =>
    obtain ⟨β', matched', same⟩ := ih matched
    obtain ⟨β'', matched'', same'⟩ := ih' matched'
    exact ⟨β'', matched'', same.trans same'⟩

theorem allTyped_iff {ts : List Ty} {pats : List Pattern} :
    sig.AllTyped ts pats ↔ ts.length = pats.length ∧
      ∀ pair ∈ ts.zip pats, sig.WellTyped (.one pair.1) pair.2 := by
  induction pats generalizing ts with
  | nil => simp
  | cons pat pats ih =>
    cases ts with
    | nil => simp [AllTyped]
    | cons t ts => simp [ih, and_left_comm]

theorem allScoped_iff {pats : List Pattern} :
    AllScoped P n0 pats ↔ ∀ pat ∈ pats, pat.Scoped P n0 := by
  induction pats with
  | nil => simp [AllScoped]
  | cons pat pats ih => simp [AllScoped, ih]

theorem overtakenByAll_iff {pats pats' : List Pattern} :
    overtakenByAll pats pats' = true ↔ ∃ pair ∈ pats.zip pats', overtakenBy pair.1 pair.2 := by
  induction pats generalizing pats' with
  | nil => simp [overtakenByAll]
  | cons pat pats ih =>
    cases pats' with
    | nil => simp [overtakenByAll]
    | cons pat' pats' => simp [overtakenByAll, ih]

theorem patsVars_perm {pats pats' : List Pattern} (perm : pats.Perm pats') :
    (patsVars pats).Perm (patsVars pats') := by
  induction perm with
  | nil => exact .refl _
  | cons pat _ ih => exact ih.append_left _
  | swap pat pat' pats =>
    simpa [patsVars, ← List.append_assoc] using List.perm_append_comm.append_right _
  | trans _ _ ih ih' => exact ih.trans ih'

def sortRow (i : Nat) (row : Row) : Row := { row with patterns := sort i 0 [] row.patterns }

theorem sortRow_refines (i : Nat) {row : Row} {vs : List Value}
    (len : row.patterns.length = vs.length) :
    Refines S ρ [sortRow i row] (sort i 0 [] vs) row vs := by
  have perm := zip_sort_perm i row.patterns vs len
  have sortLen : (sort i 0 [] row.patterns).length = (sort i 0 [] vs).length := by
    simp [(sort_perm i 0 [] row.patterns).length_eq, (sort_perm i 0 [] vs).length_eq, len]
  have here : S.matchPats ρ row.patterns vs = _ := matchPats_eq_matchPairs _ _ len
  have there : S.matchPats ρ (sortRow i row).patterns (sort i 0 [] vs) = _ :=
    matchPats_eq_matchPairs _ _ sortLen
  refine ⟨by simp [sortRow], ?_, ?_⟩
  · intro row' member β' matched
    obtain rfl := List.mem_singleton.mp member
    obtain ⟨μ', inner, rfl⟩ := List.mem_map.mp matched
    obtain ⟨μ, inner', same⟩ := matchPairs_perm perm.symm (there ▸ inner)
    exact ⟨_, List.mem_map.mpr ⟨μ, here ▸ inner', rfl⟩, same.symm.append_left _⟩
  · intro β matched
    obtain ⟨μ, inner, rfl⟩ := List.mem_map.mp matched
    obtain ⟨μ', inner', same⟩ := matchPairs_perm perm (here ▸ inner)
    exact ⟨_, List.mem_cons_self, _, List.mem_map.mpr ⟨μ', there ▸ inner', rfl⟩,
      same.append_left _⟩

theorem sortRow_keep (i : Nat) {row : Row} {ts : List Ty} (typed : sig.AllTyped ts row.patterns)
    (inScope : RowScoped P n0 n row) :
    sig.AllTyped (sort i 0 [] ts) (sortRow i row).patterns ∧ RowScoped P n0 n (sortRow i row) := by
  obtain ⟨len, all⟩ := allTyped_iff.mp typed
  have perm : (sort i 0 [] row.patterns).Perm row.patterns := by
    simpa using sort_perm i 0 [] row.patterns
  have vars : (rowVars row).Perm (rowVars (sortRow i row)) :=
    (patsVars_perm perm.symm).append_left _
  refine ⟨allTyped_iff.mpr ⟨?_, ?_⟩, ⟨inScope.bindings, ?_, ?_, ?_⟩⟩
  · simp [sortRow, perm.length_eq, (sort_perm i 0 [] ts).length_eq, len]
  · exact fun pair member => all pair ((zip_sort_perm i ts row.patterns len).mem_iff.mpr member)
  · exact allScoped_iff.mpr fun pat member =>
      allScoped_iff.mp inScope.patterns pat (perm.mem_iff.mp member)
  · exact vars.nodup_iff.mp inScope.nodup
  · exact fun g guarded y inside => ⟨(inScope.guard g guarded y inside).1,
      fun isP => vars.mem_iff.mp ((inScope.guard g guarded y inside).2 isP)⟩

theorem sortRow_overtaken (i : Nat) {first row : Row}
    (len : first.patterns.length = row.patterns.length)
    (overtaken : overtakenByAll (sortRow i first).patterns (sortRow i row).patterns = true) :
    overtakenByAll first.patterns row.patterns = true := by
  obtain ⟨pair, member, overtakes⟩ := overtakenByAll_iff.mp overtaken
  exact overtakenByAll_iff.mpr ⟨pair, (zip_sort_perm i _ _ len).mem_iff.mpr member, overtakes⟩

/-- `select_column` permutes by some `sort`. -/
theorem selectColumn_eq (subjects : List (Subject Ty)) (rows : List Row) :
    selectColumn subjects rows = (subjects, rows) ∨
      ∃ i, selectColumn subjects rows = (sort i 0 [] subjects, rows.map (sortRow i)) := by
  unfold selectColumn
  split
  · exact .inl rfl
  · split
    · exact .inl rfl
    · exact .inr ⟨_, rfl⟩

end Haxe.Source.Typing.Compile
