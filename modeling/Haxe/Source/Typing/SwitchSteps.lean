import Mathlib.Data.List.Basic
import Haxe.Source.Typing.SwitchRows

/-!
# The recursive calls of a switch

Each call of `compile` that `compile_switch` makes is for transformed rows: rows
specialized by a constructor, default rows, or rows for `null` in front of the default
rows. The last are in another order, which changes nothing while the rows are in order.
-/

namespace Haxe.Source.Typing.Compile
open Pattern Semantics Signature

variable {Value Ty : Type} {S : Semantics Value} {P : TVar → Prop} {n n0 : Nat}
variable {ρ : Env Value} {sig : Signature Ty} {M : Value → List Value → Prop}

/-- The rows of a switch on `subject`, whose column has the type `t`. -/
structure SwitchRow (sig : Signature Ty) (P : TVar → Prop) (n0 n : Nat) (subject : Texpr) (t : Ty)
    (ts : List Ty) (row : Row) : Prop where
  typed : sig.AllTyped (t :: ts) row.patterns
  inScope : RowScoped P n0 n row
  known : headOf subject row ≠ .extractor ∧ headOf subject row ≠ .unexpected

variable {subject : Texpr} {t : Ty} {ts : List Ty}

/-- A stripped row has a head that can be tested. -/
theorem SwitchRow.stripped {row : Row} (ok : SwitchRow sig P n0 n subject t ts row)
    (free : ∀ y ∈ subject.vars, y < n ∧ ¬ P y) :
    ∃ bindings pat patterns, stripRow subject row = ⟨row.case, bindings, pat :: patterns⟩ ∧
      Testable subject bindings pat ∧ sig.AllTyped (t :: ts) (pat :: patterns) ∧
      RowScoped P n0 n ⟨row.case, bindings, pat :: patterns⟩ := by
  obtain ⟨typed, inScope⟩ := stripRow_keep subject ok.typed ok.inScope free
  rcases row with ⟨case, bindings, _ | ⟨pat, patterns⟩⟩
  · have := ok.typed
    simp at this
  obtain ⟨notBind, same⟩ := stripBinds_spec subject bindings pat
  have known := ok.known
  simp only [headOf, ← same] at known
  exact ⟨_, _, patterns, rfl, ⟨notBind, known⟩, typed, inScope⟩

/-- A transformation of stripped rows, as one of rows. -/
theorem keeps_of_stripped {rows' : List Row} {ts' : List Ty} {row : Row}
    (keeps : Keeps S sig P n0 n M subject rows' ts' (stripRow subject row)) :
    Keeps S sig P n0 n M subject rows' ts' row where
  refines ρ subs vs made :=
    refines_trans (stripRow_refines subject row vs) (keeps.refines ρ subs vs made)
  typed := keeps.typed
  inScope := keeps.inScope

/-! ## Specializing -/

def specialized (subject : Texpr) (con : Constructor) (row : Row) : List Row :=
  (specializeRow subject con row.case row.bindings row.patterns).toList

theorem specialize_eq (subject : Texpr) (con : Constructor) (rows : List Row) :
    specialize subject con rows = rows.flatMap (specialized subject con) :=
  List.filterMap_eq_flatMap_toList _ _

theorem specialized_keeps (uniform : sig.UniformFields) (disjoint : S.Disjoint sig) {row : Row}
    (ok : SwitchRow sig P n0 n subject t ts row) (free : ∀ y ∈ subject.vars, y < n ∧ ¬ P y)
    {con : Constructor} {conTs : List Ty} (conTyped : sig.args t con = some conTs) :
    Keeps S sig P n0 n (fun v subs => S.view con v = some subs) subject
      (specialized subject con row) (conTs ++ ts) row := by
  obtain ⟨bindings, pat, patterns, same, testable, typed, inScope⟩ := ok.stripped free
  refine keeps_of_stripped ?_
  rw [specialized, specializeRow_strip, same]
  exact specializeRow_keeps uniform disjoint free testable conTyped typed inScope

/-- The patterns that replace the head of a specialized row. -/
theorem specialized_shape (uniform : sig.UniformFields) {case : Case}
    {bindings : List (TVar × Texpr)} {pat : Pattern} {patterns : List Pattern} {con : Constructor}
    {conTs : List Ty} (testable : Testable subject bindings pat)
    (conTyped : sig.args t con = some conTs) (typed : sig.AllTyped (t :: ts) (pat :: patterns))
    {row' : Row} (kept : specializeRow subject con case bindings (pat :: patterns) = some row') :
    ∃ parts, row'.patterns = parts ++ patterns ∧ parts.length = con.arity ∧
      ((∃ con' p, pat = patConstructor con' parts p) ∨
        (∀ pat', overtakenBy pat pat' = hasNull pat') ∧ hasNulls parts = false) := by
  have wild : ∀ k p, hasNulls (List.replicate k (patAny p)) = false := fun k p => by
    induction k with
    | zero => rfl
    | succ k ih => simpa [List.replicate_succ, hasNulls, hasNull] using ih
  cases pat with
  | patConstructor con' patterns1 p =>
    obtain ⟨conTs', conTyped', patternsTyped⟩ :=
      wellTyped_constructor.mp (allTyped_cons.mp typed).1
    by_cases equal : con.equal con' = true
    · obtain rfl := uniform.eq_of_equal conTyped conTyped' equal
      obtain rfl : _ = row' := by simpa [specializeRow] using kept
      exact ⟨patterns1, rfl, by rw [patternsTyped.length_eq, sig.arity t con conTs' conTyped'],
        .inl ⟨con, p, rfl⟩⟩
    · simp [specializeRow, equal] at kept
  | patVariable x p =>
    obtain rfl : _ = row' := by simpa [specializeRow] using kept
    exact ⟨_, rfl, by simp, .inr ⟨fun pat' => by simp [overtakenBy], wild _ _⟩⟩
  | patAny p =>
    obtain rfl : _ = row' := by simpa [specializeRow] using kept
    exact ⟨_, rfl, by simp, .inr ⟨fun pat' => by simp [overtakenBy], wild _ _⟩⟩
  | patBind v pat p => exact absurd rfl (testable.1 v pat p)
  | patExtractor | patOr | patTuple => simp [Testable, head] at testable

theorem overtakenByAll_append {pats1 pats1' pats pats' : List Pattern}
    (len : pats1.length = pats.length) :
    overtakenByAll (pats1 ++ pats1') (pats ++ pats') =
      (overtakenByAll pats1 pats || overtakenByAll pats1' pats') := by
  induction pats1 generalizing pats with
  | nil =>
    obtain rfl : pats = [] := List.length_eq_zero_iff.mp len.symm
    simp [overtakenByAll]
  | cons pat1 pats1 ih =>
    cases pats with
    | nil => simp at len
    | cons pat pats => simp [overtakenByAll, ih (by simpa using len), Bool.or_assoc]

theorem specialized_overtaken (uniform : sig.UniformFields) {first row : Row}
    (okFirst : SwitchRow sig P n0 n subject t ts first) (ok : SwitchRow sig P n0 n subject t ts row)
    (free : ∀ y ∈ subject.vars, y < n ∧ ¬ P y) {con : Constructor} {conTs : List Ty}
    (conTyped : sig.args t con = some conTs) {first' row' : Row}
    (firstMember : first' ∈ specialized subject con first)
    (member : row' ∈ specialized subject con row)
    (overtaken : overtakenByAll first'.patterns row'.patterns = true) :
    overtakenByAll first.patterns row.patterns = true := by
  refine stripRow_overtaken subject ?_
  obtain ⟨bindings1, pat1, patterns1, same1, testable1, typed1, -⟩ := okFirst.stripped free
  obtain ⟨bindings, pat, patterns, same, testable, typed, -⟩ := ok.stripped free
  rw [specialized, specializeRow_strip, same1, Option.mem_toList] at firstMember
  rw [specialized, specializeRow_strip, same, Option.mem_toList] at member
  obtain ⟨parts1, shape1, len1, kind1⟩ :=
    specialized_shape uniform testable1 conTyped typed1 firstMember
  obtain ⟨parts, shape, len, kind⟩ := specialized_shape uniform testable conTyped typed member
  rw [shape1, shape, overtakenByAll_append (len1.trans len.symm), Bool.or_eq_true] at overtaken
  rw [same1, same]
  simp only [overtakenByAll, Bool.or_eq_true]
  refine overtaken.imp_left fun overtaken => ?_
  have hasNulls := hasNull_of_overtakenBy.2 parts1 parts overtaken
  rcases kind with ⟨con', p, rfl⟩ | ⟨-, none⟩
  · rcases kind1 with ⟨con1', p1, rfl⟩ | ⟨wild, -⟩
    · simpa [overtakenBy] using overtaken
    · rw [wild, hasNull, hasNulls, Bool.or_true]
  · simp [none] at hasNulls

/-! ## Dropping the column -/

def defaulted (subject : Texpr) (row : Row) : List Row :=
  (defaultRow subject row.case row.bindings row.patterns).toList

theorem default_eq (subject : Texpr) (rows : List Row) :
    default subject rows = rows.flatMap (defaulted subject) :=
  List.filterMap_eq_flatMap_toList _ _

/-- A value that no constructor at the head of a row made. -/
def Unseen (S : Semantics Value) (subject : Texpr) (rows : List Row) (v : Value) : Prop :=
  ∀ row ∈ rows, ∀ bindings pat patterns,
    stripRow subject row = ⟨row.case, bindings, pat :: patterns⟩ →
    ∀ con patterns1 p, pat = patConstructor con patterns1 p → S.view con v = none

theorem defaulted_keeps {row : Row} (ok : SwitchRow sig P n0 n subject t ts row)
    (free : ∀ y ∈ subject.vars, y < n ∧ ¬ P y) {rows : List Row} (member : row ∈ rows) :
    Keeps S sig P n0 n (fun v subs => Unseen S subject rows v ∧ subs = []) subject
      (defaulted subject row) ts row := by
  obtain ⟨bindings, pat, patterns, same, testable, typed, inScope⟩ := ok.stripped free
  refine keeps_of_stripped ?_
  rw [defaulted, defaultRow_strip, same]
  refine defaultRow_keeps free testable (fun _ _ made => made.2) ?_ typed inScope
  exact fun v subs made => made.1 row member bindings pat patterns same

/-- A default row is the rest of a row that starts with a wildcard. -/
theorem defaultRow_shape {case : Case} {bindings : List (TVar × Texpr)} {pat : Pattern}
    {patterns : List Pattern} (testable : Testable subject bindings pat) {row' : Row}
    (kept : defaultRow subject case bindings (pat :: patterns) = some row') :
    row'.patterns = patterns ∧ ∀ pat', overtakenBy pat pat' = hasNull pat' := by
  cases pat with
  | patConstructor con patterns1 p =>
    rw [defaultRow] at kept
    · cases kept
    all_goals simp
  | patVariable x p | patAny p =>
    obtain rfl : _ = row' := by simpa [defaultRow] using kept
    exact ⟨rfl, fun pat' => by simp [overtakenBy]⟩
  | patBind v pat p => exact absurd rfl (testable.1 v pat p)
  | patExtractor | patOr | patTuple => simp [Testable, head] at testable

/-- A row for `null` is the rest of a row that starts with a test for `null`. -/
theorem nullRow_shape {case : Case} {bindings : List (TVar × Texpr)} {pat : Pattern}
    {patterns : List Pattern} (testable : Testable subject bindings pat) {row' : Row}
    (kept : nullRow subject ⟨case, bindings, pat :: patterns⟩ = some row') :
    row'.patterns = patterns ∧ row'.case = case ∧ hasNull pat = true := by
  cases pat with
  | patConstructor con patterns1 p =>
    by_cases same : con = .conConst .tNull
    · subst same
      obtain rfl : _ = row' := by simpa [nullRow, head] using kept
      exact ⟨rfl, rfl, by simp [hasNull]⟩
    · simp [nullRow_of_ne same] at kept
  | patVariable x p | patAny p => simp [nullRow, head] at kept
  | patBind v pat p => exact absurd rfl (testable.1 v pat p)
  | patExtractor | patOr | patTuple => simp [Testable, head] at testable

theorem defaulted_overtaken {first row first' row' : Row}
    (okFirst : SwitchRow sig P n0 n subject t ts first) (ok : SwitchRow sig P n0 n subject t ts row)
    (free : ∀ y ∈ subject.vars, y < n ∧ ¬ P y) (firstMember : first' ∈ defaulted subject first)
    (member : row' ∈ defaulted subject row)
    (overtaken : overtakenByAll first'.patterns row'.patterns = true) :
    overtakenByAll first.patterns row.patterns = true := by
  refine stripRow_overtaken subject ?_
  obtain ⟨bindings1, pat1, patterns1, same1, testable1, -, -⟩ := okFirst.stripped free
  obtain ⟨bindings, pat, patterns, same, testable, -, -⟩ := ok.stripped free
  rw [defaulted, defaultRow_strip, same1, Option.mem_toList] at firstMember
  rw [defaulted, defaultRow_strip, same, Option.mem_toList] at member
  rw [(defaultRow_shape testable1 firstMember).1, (defaultRow_shape testable member).1] at overtaken
  simp [same1, same, overtakenByAll, overtaken]

/-! ## Rows for `null` in front of the default rows -/

def nulled (subject : Texpr) (row : Row) : List Row := (nullRow subject row).toList

/-- The rows for a subject that is `null`, in the order of the rows they come from. -/
def merged (subject : Texpr) (row : Row) : List Row := nulled subject row ++ defaulted subject row

theorem merged_keeps (disjoint : S.Disjoint sig) {row : Row}
    (ok : SwitchRow sig P n0 n subject t ts row) (free : ∀ y ∈ subject.vars, y < n ∧ ¬ P y) :
    Keeps S sig P n0 n (fun v subs => S.isNull v = true ∧ subs = []) subject
      (merged subject row) ts row := by
  obtain ⟨bindings, pat, patterns, same, testable, typed, inScope⟩ := ok.stripped free
  refine keeps_of_stripped ?_
  rw [merged, nulled, defaulted, nullRow_strip, defaultRow_strip, same]
  exact nullRow_keeps disjoint free testable typed inScope

theorem merged_overtaken {first row first' row' : Row}
    (okFirst : SwitchRow sig P n0 n subject t ts first) (ok : SwitchRow sig P n0 n subject t ts row)
    (free : ∀ y ∈ subject.vars, y < n ∧ ¬ P y) (firstMember : first' ∈ merged subject first)
    (member : row' ∈ merged subject row)
    (overtaken : overtakenByAll first'.patterns row'.patterns = true) :
    overtakenByAll first.patterns row.patterns = true := by
  refine stripRow_overtaken subject ?_
  obtain ⟨bindings1, pat1, patterns1, same1, testable1, -, -⟩ := okFirst.stripped free
  obtain ⟨bindings, pat, patterns, same, testable, -, -⟩ := ok.stripped free
  have rest1 : first'.patterns = patterns1 := by
    rcases List.mem_append.mp firstMember with member | member
    · rw [nulled, nullRow_strip, same1, Option.mem_toList] at member
      exact (nullRow_shape testable1 member).1
    · rw [defaulted, defaultRow_strip, same1, Option.mem_toList] at member
      exact (defaultRow_shape testable1 member).1
  have rest : row'.patterns = patterns := by
    rcases List.mem_append.mp member with member | member
    · rw [nulled, nullRow_strip, same, Option.mem_toList] at member
      exact (nullRow_shape testable member).1
    · rw [defaulted, defaultRow_strip, same, Option.mem_toList] at member
      exact (defaultRow_shape testable member).1
  rw [rest1, rest] at overtaken
  simp [same1, same, overtakenByAll, overtaken]

/-- A row for `null` overtakes a default row at the head. -/
theorem nulled_overtakes {first row first' row' : Row}
    (okFirst : SwitchRow sig P n0 n subject t ts first) (ok : SwitchRow sig P n0 n subject t ts row)
    (free : ∀ y ∈ subject.vars, y < n ∧ ¬ P y) (firstMember : first' ∈ defaulted subject first)
    (member : row' ∈ nulled subject row) : overtakenByAll first.patterns row.patterns = true := by
  refine stripRow_overtaken subject ?_
  obtain ⟨bindings1, pat1, patterns1, same1, testable1, -, -⟩ := okFirst.stripped free
  obtain ⟨bindings, pat, patterns, same, testable, -, -⟩ := ok.stripped free
  rw [defaulted, defaultRow_strip, same1, Option.mem_toList] at firstMember
  rw [nulled, nullRow_strip, same, Option.mem_toList] at member
  have wild := (defaultRow_shape testable1 firstMember).2
  have null := (nullRow_shape testable member).2.2
  simp [same1, same, overtakenByAll, wild, null]

/-- Moving the rows for `null` to the front keeps the first case that is taken, if no row
for `null` of another case is taken. -/
theorem first_nulls_in_front {vs : List Value} {c : Case} {rows : List Row}
    (exclusive : ∀ row ∈ rows, nulled subject row = [] ∨ defaulted subject row = [])
    (single : ∀ row ∈ rows, ∀ row' ∈ nulled subject row, IsTaken S ρ vs row' →
      (∃ first ∈ rows, ∃ first' ∈ defaulted subject first, first'.case = c ∧
        IsTaken S ρ vs first') → row'.case = c)
    (first : First S ρ vs c (rows.flatMap (merged subject))) :
    First S ρ vs c (rows.flatMap (nulled subject) ++ rows.flatMap (defaulted subject)) := by
  induction rows with
  | nil => exact first
  | cons row rows ih =>
    have ih := ih (fun row member => exclusive row (.tail _ member))
      fun row member row' inside taken ⟨first, firstMember, rest⟩ =>
        single row (.tail _ member) row' inside taken ⟨first, .tail _ firstMember, rest⟩
    simp only [List.flatMap_cons, merged] at first ⊢
    rcases exclusive row List.mem_cons_self with none | none
    · rw [none, List.nil_append] at first ⊢
      rcases first_append.mp first with here | ⟨free, later⟩
      · by_cases some : ∃ row' ∈ rows.flatMap (nulled subject), IsTaken S ρ vs row'
        · obtain ⟨row', member, taken⟩ := some
          obtain ⟨c', front⟩ := exists_first member taken
          obtain ⟨other, otherMember, sameCase, otherTaken⟩ := front.exists_taken
          obtain ⟨source, sourceMember, inside⟩ := List.mem_flatMap.mp otherMember
          obtain ⟨row0, member0, case0, taken0⟩ := here.exists_taken
          have := single source (.tail _ sourceMember) other inside otherTaken
            ⟨row, List.mem_cons_self, row0, member0, case0, taken0⟩
          obtain rfl : c' = c := sameCase.symm.trans this
          exact first_append.mpr (.inl front)
        · refine first_append.mpr (.inr ⟨fun row' member taken => some ⟨row', member, taken⟩, ?_⟩)
          exact first_append.mpr (.inl here)
      · rcases first_append.mp (ih later) with front | ⟨freeNulls, back⟩
        · exact first_append.mpr (.inl front)
        · exact first_append.mpr (.inr ⟨freeNulls, first_append.mpr (.inr ⟨free, back⟩)⟩)
    · rw [none, List.append_nil] at first
      rw [none, List.nil_append, List.append_assoc]
      rcases first_append.mp first with here | ⟨free, later⟩
      · exact first_append.mpr (.inl here)
      · exact first_append.mpr (.inr ⟨free, ih later⟩)

/-! ## What each call does for the switch -/

theorem refines_of_keeps {g : Row → List Row} {rows : List Row} {ts' : List Ty}
    (keeps : ∀ row ∈ rows, Keeps S sig P n0 n M subject (g row) ts' row) {subs : List Value}
    (vs : List Value) (made : M (S.eval ρ subject) subs) :
    ∀ row ∈ rows, Refines S ρ (g row) (subs ++ vs) row (S.eval ρ subject :: vs) :=
  fun row member => (keeps row member).refines ρ subs vs made

theorem outcome_of_same {rows rows' : List Row} {vs : List Value}
    (members : ∀ row, row ∈ rows' ↔ row ∈ rows)
    (firsts : ∀ c, First S ρ vs c rows' ↔ First S ρ vs c rows)
    {reached : Option (Case × Env Value)} (outcome : Outcome S P n ρ rows' vs reached) :
    Outcome S P n ρ rows vs reached := by
  cases reached with
  | none => exact fun row member => outcome row ((members row).mpr member)
  | some reached =>
    obtain ⟨first, agree, row, member, rest⟩ := outcome
    exact ⟨(firsts _).mp first, agree, row, (members row).mp member, rest⟩

theorem inOrder_of_same {rows rows' : List Row} {vs : List Value}
    (members : ∀ row, row ∈ rows' ↔ row ∈ rows)
    (firsts : ∀ c, First S ρ vs c rows' ↔ First S ρ vs c rows) (inOrder : InOrder S ρ rows vs) :
    InOrder S ρ rows' vs :=
  fun c isFirst first member same taken row member' =>
    inOrder c ((firsts c).mp isFirst) first ((members first).mp member) same taken row
      ((members row).mp member')

theorem nulls_default_eq (subject : Texpr) (rows : List Row) :
    rows.filterMap (nullRow subject) ++ default subject rows =
      rows.flatMap (nulled subject) ++ rows.flatMap (defaulted subject) := by
  rw [default_eq, List.filterMap_eq_flatMap_toList]
  rfl

theorem mem_nulls_default {rows : List Row} (row' : Row) :
    row' ∈ rows.flatMap (nulled subject) ++ rows.flatMap (defaulted subject) ↔
      row' ∈ rows.flatMap (merged subject) := by
  simp only [List.mem_append, List.mem_flatMap, merged]
  constructor
  · rintro (⟨row, inside, here⟩ | ⟨row, inside, here⟩)
    · exact ⟨row, inside, .inl here⟩
    · exact ⟨row, inside, .inr here⟩
  · rintro ⟨row, inside, here | here⟩
    · exact .inl ⟨row, inside, here⟩
    · exact .inr ⟨row, inside, here⟩

/-- For a subject that is `null`: the reordered rows have the first case of the switch. -/
theorem first_null_step (disjoint : S.Disjoint sig) {rows : List Row}
    (ok : ∀ row ∈ rows, SwitchRow sig P n0 n subject t ts row)
    (free : ∀ y ∈ subject.vars, y < n ∧ ¬ P y) {vs : List Value}
    (isNull : S.isNull (S.eval ρ subject) = true)
    (inOrder : InOrder S ρ rows (S.eval ρ subject :: vs)) (c : Case) :
    First S ρ vs c (rows.flatMap (nulled subject) ++ rows.flatMap (defaulted subject)) ↔
      First S ρ vs c (rows.flatMap (merged subject)) := by
  have keeps := fun row member => merged_keeps disjoint (ok row member) free
  have refines := refines_of_keeps (ρ := ρ) keeps vs ⟨isNull, rfl⟩
  simp only [List.nil_append] at refines
  have inScope := fun row member => (ok row member).inScope
  have front : ∀ c, First S ρ vs c (rows.flatMap (merged subject)) →
      First S ρ vs c (rows.flatMap (nulled subject) ++ rows.flatMap (defaulted subject)) := by
    intro c isFirst
    refine first_nulls_in_front ?_ ?_ isFirst
    · intro row member
      cases kept : nullRow subject row with
      | none => exact .inl (by simp [nulled, kept])
      | some row' => exact .inr (by simp [defaulted, (nullRow_weight kept).2])
    · rintro row member row' inside ⟨β', taken⟩
        ⟨first, firstMember, first', inside', same, ⟨μ', taken'⟩⟩
      have intoRow : row' ∈ merged subject row := List.mem_append_left _ inside
      have intoFirst : first' ∈ merged subject first := List.mem_append_right _ inside'
      obtain ⟨β, taken, -⟩ := (refines row member).taken_of (inScope row member) intoRow taken
      obtain ⟨μ, taken', -⟩ :=
        (refines first firstMember).taken_of (inScope first firstMember) intoFirst taken'
      by_contra other
      have ordered := inOrder c ((first_flatMap refines inScope).mp isFirst) first firstMember
        (((refines first firstMember).case first' intoFirst).symm.trans same) ⟨μ, taken'⟩ row member
        (by rwa [← (refines row member).case row' intoRow]) ⟨β, taken⟩
      rw [nulled_overtakes (ok first firstMember) (ok row member) free inside' inside] at ordered
      cases ordered
  constructor
  · intro isFirst
    obtain ⟨row', member, -, taken⟩ := isFirst.exists_taken
    obtain ⟨c', isFirst'⟩ := exists_first ((mem_nulls_default row').mp member) taken
    rwa [← (front c' isFirst').unique isFirst]
  · exact front c

end Haxe.Source.Typing.Compile
