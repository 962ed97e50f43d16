import Haxe.Source.Typing.ExpandRows

/-!
# The rows of a switch

First the binds around the head of a row are moved to its bindings. Then specializing by
the constructor of the value, or dropping the tested column for a value that no
constructor made, keeps the matches; so does splitting off the rows for `null`, as long
as the rows are in order.
-/

namespace Haxe.Source.Typing.Compile
open Pattern Semantics Signature

variable {Value Ty : Type} {S : Semantics Value} {P : TVar → Prop} {n n0 : Nat}
variable {ρ : Env Value} {sig : Signature Ty}

/-! ## Products -/

@[simp] theorem product_one_left (second : List (Bindings Value)) : product [[]] second = second := by
  simp [product]

@[simp] theorem product_one_right (first : List (Bindings Value)) : product first [[]] = first := by
  simp [product]

theorem product_assoc (first second third : List (Bindings Value)) :
    product (product first second) third = product first (product second third) := by
  simp [product, List.flatMap_assoc, List.flatMap_map, List.map_flatMap, Function.comp_def]

theorem matchPats_append {pats pats' : List Pattern} {vs vs' : List Value}
    (len : pats.length = vs.length) :
    S.matchPats ρ (pats ++ pats') (vs ++ vs') =
      product (S.matchPats ρ pats vs) (S.matchPats ρ pats' vs') := by
  induction pats generalizing vs with
  | nil =>
    obtain rfl : vs = [] := List.length_eq_zero_iff.mp len.symm
    simp [matchPats]
  | cons pat pats ih =>
    cases vs with
    | nil => simp at len
    | cons v vs => simp [matchPats, ih (by simpa using len : pats.length = vs.length), product_assoc]

theorem matchPats_replicate_any {k : Nat} {p : Pos} {vs : List Value} (len : vs.length = k) :
    S.matchPats ρ (List.replicate k (patAny p)) vs = [[]] := by
  subst len
  induction vs with
  | nil => simp [matchPats]
  | cons v vs ih => simpa [List.replicate_succ, matchPats, matchPat] using ih

/-! ## Binds around the head -/

/-- Moves the binds around a pattern to the bindings. -/
@[grind =] def stripBinds (subject : Texpr) (bindings : List (TVar × Texpr)) :
    Pattern → List (TVar × Texpr) × Pattern
  | patBind v pat1 _ => stripBinds subject ((v, subject) :: bindings) pat1
  | pat => (bindings, pat)

@[grind =] def stripRow (subject : Texpr) (row : Row) : Row :=
  match row.patterns with
  | [] => row
  | pat :: patterns =>
    let (bindings, pat') := stripBinds subject row.bindings pat
    ⟨row.case, bindings, pat' :: patterns⟩

def NotBind (pat : Pattern) : Prop := ∀ v pat' p, pat ≠ patBind v pat' p

theorem stripBinds_spec (subject : Texpr) (bindings : List (TVar × Texpr)) (pat : Pattern) :
    NotBind (stripBinds subject bindings pat).2 ∧
      head subject (stripBinds subject bindings pat).1 (stripBinds subject bindings pat).2 =
        head subject bindings pat := by
  induction bindings, pat using stripBinds.induct subject with
  | case1 bindings v pat1 p ih => simpa [stripBinds, head] using ih
  | case2 bindings pat notBind => cases pat <;> simp_all [stripBinds, NotBind]

theorem refines_refl (row : Row) (vs : List Value) : Refines S ρ [row] vs row vs where
  case row' member := by rw [List.mem_singleton.mp member]
  sound row' member β' matched := ⟨β', List.mem_singleton.mp member ▸ matched, .refl _⟩
  complete β matched := ⟨row, List.mem_cons_self, β, matched, .refl _⟩

theorem refines_trans {row1 row : Row} {rows2 : List Row} {vs vs1 vs2 : List Value}
    (first : Refines S ρ [row1] vs1 row vs) (second : Refines S ρ rows2 vs2 row1 vs1) :
    Refines S ρ rows2 vs2 row vs where
  case row' member := (second.case row' member).trans (first.case row1 List.mem_cons_self)
  sound row' member β' matched := by
    obtain ⟨β1, matched1, perm1⟩ := second.sound row' member β' matched
    obtain ⟨β, matched, perm⟩ := first.sound row1 List.mem_cons_self β1 matched1
    exact ⟨β, matched, perm.trans perm1⟩
  complete β matched := by
    obtain ⟨row', member, β1, matched1, perm⟩ := first.complete β matched
    obtain rfl := List.mem_singleton.mp member
    obtain ⟨row'', member', β2, matched2, perm'⟩ := second.complete β1 matched1
    exact ⟨row'', member', β2, matched2, perm.trans perm'⟩

/-- Moving one bind: the matches are the same up to where the variable stands. -/
theorem bind_refines {subject : Texpr} {case : Case} {bindings : List (TVar × Texpr)} {x : TVar}
    {pat : Pattern} {p : Pos} {patterns : List Pattern} {vs : List Value} :
    Refines S ρ [⟨case, (x, subject) :: bindings, pat :: patterns⟩] (S.eval ρ subject :: vs)
      ⟨case, bindings, patBind x pat p :: patterns⟩ (S.eval ρ subject :: vs) := by
  refine ⟨by simp, ?_, ?_⟩
  · intro row' member β' matched
    obtain rfl := List.mem_singleton.mp member
    obtain ⟨μ, inner, rfl⟩ := List.mem_map.mp matched
    obtain ⟨μ1, first, μ2, second, rfl⟩ := mem_product.mp inner
    refine ⟨_, List.mem_map.mpr ⟨(x, S.eval ρ subject) :: μ1 ++ μ2, mem_product.mpr
      ⟨_, List.mem_map.mpr ⟨μ1, first, rfl⟩, μ2, second, rfl⟩, rfl⟩, ?_⟩
    simp [bound]
  · intro β matched
    obtain ⟨μ, inner, rfl⟩ := List.mem_map.mp matched
    obtain ⟨μ0, first, μ2, second, rfl⟩ := mem_product.mp inner
    obtain ⟨μ1, first', rfl⟩ := List.mem_map.mp first
    refine ⟨_, List.mem_cons_self, _, List.mem_map.mpr ⟨μ1 ++ μ2, mem_product.mpr
      ⟨μ1, first', μ2, second, rfl⟩, rfl⟩, ?_⟩
    simp [bound]

theorem rowScoped_of_perm {row row' : Row} (inScope : RowScoped P n0 n row)
    (case : row'.case = row.case)
    (bindings : ∀ b ∈ row'.bindings, P b.1 ∧ ∀ y ∈ b.2.vars, y < n ∧ ¬ P y)
    (patterns : AllScoped P n0 row'.patterns) (perm : (rowVars row).Perm (rowVars row')) :
    RowScoped P n0 n row' where
  bindings := bindings
  patterns := patterns
  nodup := perm.nodup_iff.mp inScope.nodup
  guard g guarded y inside :=
    ⟨(inScope.guard g (case ▸ guarded) y inside).1,
      fun isP => perm.mem_iff.mp ((inScope.guard g (case ▸ guarded) y inside).2 isP)⟩

/-- Adding `x = subject` to the bindings of a row whose head bound `x`. -/
theorem bind_inScope {subject : Texpr} {case : Case} {bindings : List (TVar × Texpr)} {x : TVar}
    {pat : Pattern} {patterns patterns' : List Pattern}
    (free : ∀ y ∈ subject.vars, y < n ∧ ¬ P y) (isP : P x)
    (vars : patsVars (pat :: patterns) = x :: patsVars patterns')
    (patternsScoped : AllScoped P n0 patterns')
    (inScope : RowScoped P n0 n ⟨case, bindings, pat :: patterns⟩) :
    RowScoped P n0 n ⟨case, (x, subject) :: bindings, patterns'⟩ := by
  refine rowScoped_of_perm inScope rfl ?_ patternsScoped ?_
  · intro b member
    rcases List.mem_cons.mp member with rfl | member
    · exact ⟨isP, free⟩
    · exact inScope.bindings b member
  · simp [rowVars, vars]

theorem stripRow_keep (subject : Texpr) {row : Row} {t : Ty} {ts : List Ty}
    (typed : sig.AllTyped (t :: ts) row.patterns) (inScope : RowScoped P n0 n row)
    (free : ∀ y ∈ subject.vars, y < n ∧ ¬ P y) :
    sig.AllTyped (t :: ts) (stripRow subject row).patterns ∧
      RowScoped P n0 n (stripRow subject row) := by
  rcases row with ⟨case, bindings, _ | ⟨pat, patterns⟩⟩
  · simp at typed
  induction bindings, pat using stripBinds.induct subject with
  | case1 bindings x pat1 p ih =>
    obtain ⟨headTyped, restTyped⟩ := allTyped_cons.mp typed
    have patternsScoped := inScope.patterns
    simp only [AllScoped, Scoped] at patternsScoped
    exact ih (allTyped_cons.mpr ⟨wellTyped_bind.mp headTyped, restTyped⟩)
      (bind_inScope free patternsScoped.1.1 (by simp [patsVars, patVars])
        ⟨patternsScoped.1.2, patternsScoped.2⟩ inScope)
  | case2 bindings pat notBind =>
    have same : stripRow subject ⟨case, bindings, pat :: patterns⟩ =
        ⟨case, bindings, pat :: patterns⟩ := by
      cases pat <;> simp_all [stripRow, stripBinds]
    rw [same]
    exact ⟨typed, inScope⟩

theorem stripRow_refines (subject : Texpr) (row : Row) (vs : List Value) :
    Refines S ρ [stripRow subject row] (S.eval ρ subject :: vs) row (S.eval ρ subject :: vs) := by
  rcases row with ⟨case, bindings, _ | ⟨pat, patterns⟩⟩
  · exact refines_refl _ _
  induction bindings, pat using stripBinds.induct subject with
  | case1 bindings x pat1 p ih => exact refines_trans bind_refines ih
  | case2 bindings pat notBind =>
    have same : stripRow subject ⟨case, bindings, pat :: patterns⟩ =
        ⟨case, bindings, pat :: patterns⟩ := by
      cases pat <;> simp_all [stripRow, stripBinds]
    rw [same]
    exact refines_refl _ _

theorem overtakenBy_stripBinds (subject subject' : Texpr) (bindings bindings' : List (TVar × Texpr))
    (pat pat' : Pattern) :
    overtakenBy (stripBinds subject bindings pat).2 (stripBinds subject' bindings' pat').2 =
      overtakenBy pat pat' := by
  induction bindings, pat using stripBinds.induct subject with
  | case1 bindings x pat1 p ih => simpa [stripBinds, overtakenBy] using ih
  | case2 bindings pat notBind =>
    have same : stripBinds subject bindings pat = (bindings, pat) := by
      cases pat <;> simp_all [stripBinds]
    rw [same]
    induction bindings', pat' using stripBinds.induct subject' with
    | case1 bindings' x pat1 p ih => simpa [stripBinds, overtakenBy_bind_right] using ih
    | case2 bindings' pat' notBind' => cases pat' <;> simp_all [stripBinds]

theorem stripRow_overtaken (subject : Texpr) {first row : Row}
    (overtaken : overtakenByAll (stripRow subject first).patterns
      (stripRow subject row).patterns = true) :
    overtakenByAll first.patterns row.patterns = true := by
  rcases first with ⟨case1, bindings1, _ | ⟨pat1, patterns1⟩⟩
  · simp [stripRow, overtakenByAll] at overtaken
  rcases row with ⟨case, bindings, _ | ⟨pat, patterns⟩⟩
  · simp [stripRow, overtakenByAll] at overtaken
  · simpa [stripRow, overtakenByAll, overtakenBy_stripBinds] using overtaken

/-! ## The transformations only see stripped rows -/

theorem specializeRow_strip (subject : Texpr) (con : Constructor) (row : Row) :
    specializeRow subject con row.case row.bindings row.patterns =
      specializeRow subject con (stripRow subject row).case (stripRow subject row).bindings
        (stripRow subject row).patterns := by
  rcases row with ⟨case, bindings, _ | ⟨pat, patterns⟩⟩
  · rfl
  induction bindings, pat using stripBinds.induct subject with
  | case1 bindings x pat1 p ih =>
    rw [specializeRow]
    simpa [stripRow, stripBinds] using ih
  | case2 bindings pat notBind => cases pat <;> simp_all [stripRow, stripBinds]

theorem defaultRow_strip (subject : Texpr) (row : Row) :
    defaultRow subject row.case row.bindings row.patterns =
      defaultRow subject (stripRow subject row).case (stripRow subject row).bindings
        (stripRow subject row).patterns := by
  rcases row with ⟨case, bindings, _ | ⟨pat, patterns⟩⟩
  · rfl
  induction bindings, pat using stripBinds.induct subject with
  | case1 bindings x pat1 p ih =>
    rw [defaultRow]
    simpa [stripRow, stripBinds] using ih
  | case2 bindings pat notBind => cases pat <;> simp_all [stripRow, stripBinds]

theorem headOf_strip (subject : Texpr) (row : Row) :
    headOf subject (stripRow subject row) = headOf subject row := by
  rcases row with ⟨case, bindings, _ | ⟨pat, patterns⟩⟩
  · rfl
  · simpa [headOf, stripRow] using (stripBinds_spec subject bindings pat).2

theorem nullRow_strip (subject : Texpr) (row : Row) :
    nullRow subject row = nullRow subject (stripRow subject row) := by
  rcases row with ⟨case, bindings, _ | ⟨pat, patterns⟩⟩
  · rfl
  · simp [nullRow, stripRow, (stripBinds_spec subject bindings pat).2]

/-! ## Opening a head -/

/-- `pat` is opened into the patterns `parts` for the values `subs`, binding `xs` to the
value `v`, whenever `M v subs`. -/
structure HeadOpens (S : Semantics Value) (sig : Signature Ty) (P : TVar → Prop) (n0 : Nat)
    (M : Value → List Value → Prop) (conTs : List Ty) (pat : Pattern) (parts : List Pattern)
    (xs : List TVar) : Prop where
  matched : ∀ ρ v subs, M v subs → S.matchPat ρ pat [v] =
    (S.matchPats ρ parts subs).map ((xs.map fun x => (x, v)) ++ ·)
  length : ∀ v subs, M v subs → parts.length = subs.length
  vars : patVars pat = xs ++ patsVars parts
  isP : ∀ x ∈ xs, P x
  scopes : AllScoped P n0 parts
  typed : sig.AllTyped conTs parts

/-- What a transformation of rows has to do: new rows are typed for the new columns and in
scope, and have the same matches on a value `v` that is replaced by `subs`. -/
structure Keeps (S : Semantics Value) (sig : Signature Ty) (P : TVar → Prop) (n0 n : Nat)
    (M : Value → List Value → Prop) (subject : Texpr) (rows' : List Row) (ts' : List Ty)
    (row : Row) : Prop where
  refines : ∀ ρ subs vs, M (S.eval ρ subject) subs →
    Refines S ρ rows' (subs ++ vs) row (S.eval ρ subject :: vs)
  typed : ∀ row' ∈ rows', sig.AllTyped ts' row'.patterns
  inScope : ∀ row' ∈ rows', RowScoped P n0 n row'

variable {M : Value → List Value → Prop}

def openedRow (subject : Texpr) (case : Case) (bindings : List (TVar × Texpr))
    (parts : List Pattern) (xs : List TVar) (patterns : List Pattern) : Row :=
  ⟨case, (xs.map fun x => (x, subject)) ++ bindings, parts ++ patterns⟩

theorem opened_refines {subject : Texpr} {case : Case} {bindings : List (TVar × Texpr)}
    {pat : Pattern} {patterns parts : List Pattern} {xs : List TVar} {conTs : List Ty}
    (opens : HeadOpens S sig P n0 M conTs pat parts xs) {subs : List Value} (vs : List Value)
    (made : M (S.eval ρ subject) subs) :
    Refines S ρ [openedRow subject case bindings parts xs patterns] (subs ++ vs)
      ⟨case, bindings, pat :: patterns⟩ (S.eval ρ subject :: vs) := by
  have boundNew : S.bound ρ ((xs.map fun x => (x, subject)) ++ bindings) =
      (xs.map fun x => (x, S.eval ρ subject)) ++ S.bound ρ bindings := by
    simp [bound, Function.comp_def]
  have place : ∀ μ1 μ2 : Bindings Value,
      (S.bound ρ bindings ++ ((xs.map fun x => (x, S.eval ρ subject)) ++ μ1 ++ μ2)).Perm
        (S.bound ρ ((xs.map fun x => (x, subject)) ++ bindings) ++ (μ1 ++ μ2)) := by
    intro μ1 μ2
    rw [boundNew, List.append_assoc, ← List.append_assoc]
    exact List.perm_append_comm.append_right _
  have matched := opens.matched ρ _ subs made
  have length := opens.length _ subs made
  refine ⟨by simp [openedRow], ?_, ?_⟩
  · intro row' member β' taken
    obtain rfl := List.mem_singleton.mp member
    obtain ⟨μ, inner, rfl⟩ := List.mem_map.mp taken
    simp only [openedRow, matchPats_append length] at inner
    obtain ⟨μ1, first, μ2, second, rfl⟩ := mem_product.mp inner
    refine ⟨_, List.mem_map.mpr ⟨_, mem_product.mpr ⟨_, ?_, μ2, second, rfl⟩, rfl⟩, place μ1 μ2⟩
    rw [matched]
    exact List.mem_map.mpr ⟨μ1, first, rfl⟩
  · intro β taken
    obtain ⟨μ, inner, rfl⟩ := List.mem_map.mp taken
    obtain ⟨μ0, first, μ2, second, rfl⟩ := mem_product.mp inner
    rw [matched] at first
    obtain ⟨μ1, first', rfl⟩ := List.mem_map.mp first
    refine ⟨_, List.mem_cons_self, _, List.mem_map.mpr ⟨μ1 ++ μ2, ?_, rfl⟩, place μ1 μ2⟩
    simp only [openedRow, matchPats_append length]
    exact mem_product.mpr ⟨μ1, first', μ2, second, rfl⟩

theorem opened_inScope {subject : Texpr} {case : Case} {bindings : List (TVar × Texpr)}
    {pat : Pattern} {patterns parts : List Pattern} {xs : List TVar} {conTs : List Ty}
    (free : ∀ y ∈ subject.vars, y < n ∧ ¬ P y)
    (opens : HeadOpens S sig P n0 M conTs pat parts xs)
    (inScope : RowScoped P n0 n ⟨case, bindings, pat :: patterns⟩) :
    RowScoped P n0 n (openedRow subject case bindings parts xs patterns) := by
  refine rowScoped_of_perm inScope rfl ?_ ?_ ?_
  · intro b member
    rcases List.mem_append.mp member with member | member
    · obtain ⟨x, inside, rfl⟩ := List.mem_map.mp member
      exact ⟨opens.isP x inside, free⟩
    · exact inScope.bindings b member
  · have rest := inScope.patterns
    simp only [AllScoped] at rest
    exact allScoped_append.mpr ⟨opens.scopes, rest.2⟩
  · simp only [rowVars, openedRow, patsVars, opens.vars, patsVars_append, List.map_append,
      List.map_map, Function.comp_def, List.map_id']
    rw [List.append_assoc xs, List.append_assoc xs, ← List.append_assoc, ← List.append_assoc xs]
    exact List.perm_append_comm.append_right _

theorem allTyped_append {ts ts' : List Ty} {pats pats' : List Pattern}
    (typed : sig.AllTyped ts pats) (typed' : sig.AllTyped ts' pats') :
    sig.AllTyped (ts ++ ts') (pats ++ pats') := by
  induction pats generalizing ts with
  | nil => simpa [allTyped_nil.mp typed] using typed'
  | cons pat pats ih =>
    cases ts with
    | nil => simp [AllTyped] at typed
    | cons t ts =>
      obtain ⟨head, rest⟩ := allTyped_cons.mp typed
      exact allTyped_cons.mpr ⟨head, ih rest⟩

/-- A head that is opened. -/
theorem keeps_opened {subject : Texpr} {case : Case} {bindings : List (TVar × Texpr)}
    {pat : Pattern} {patterns parts : List Pattern} {xs : List TVar} {t : Ty} {conTs ts : List Ty}
    (free : ∀ y ∈ subject.vars, y < n ∧ ¬ P y)
    (opens : HeadOpens S sig P n0 M conTs pat parts xs)
    (typed : sig.AllTyped (t :: ts) (pat :: patterns))
    (inScope : RowScoped P n0 n ⟨case, bindings, pat :: patterns⟩) :
    Keeps S sig P n0 n M subject [openedRow subject case bindings parts xs patterns] (conTs ++ ts)
      ⟨case, bindings, pat :: patterns⟩ where
  refines _ _ vs made := opened_refines opens vs made
  typed row' member := by
    obtain rfl := List.mem_singleton.mp member
    exact allTyped_append opens.typed (allTyped_cons.mp typed).2
  inScope row' member := by
    obtain rfl := List.mem_singleton.mp member
    exact opened_inScope free opens inScope

/-- A head that does not match. -/
theorem keeps_unmatched {subject : Texpr} {case : Case} {bindings : List (TVar × Texpr)}
    {pat : Pattern} {patterns : List Pattern} {ts' : List Ty}
    (none : ∀ ρ v subs, M v subs → S.matchPat ρ pat [v] = []) :
    Keeps S sig P n0 n M subject [] ts' ⟨case, bindings, pat :: patterns⟩ where
  refines ρ subs vs made :=
    { case := by simp
      sound := by simp
      complete := by simp [rowMatches, matchPats, product, none ρ _ subs made] }
  typed := by simp
  inScope := by simp

/-! ## Wildcards, constructors and `null` at the head -/

theorem opens_variable {x : TVar} {p : Pos} (q : Pos) {k : Nat} {conTs : List Ty} (isP : P x)
    (arity : conTs.length = k) (len : ∀ v subs, M v subs → subs.length = k) :
    HeadOpens S sig P n0 M conTs (patVariable x p) (List.replicate k (patAny q)) [x] where
  matched ρ v subs made := by simp [matchPat, matchPats_replicate_any (len v subs made)]
  length v subs made := by simp [len v subs made]
  vars := by simp [patVars]
  isP := by simpa using isP
  scopes := allScoped_replicate_any _ _
  typed := allTyped_replicate_any conTs arity

theorem opens_any {p : Pos} (q : Pos) {k : Nat} {conTs : List Ty} (arity : conTs.length = k)
    (len : ∀ v subs, M v subs → subs.length = k) :
    HeadOpens S sig P n0 M conTs (patAny p) (List.replicate k (patAny q)) [] where
  matched ρ v subs made := by simp [matchPat, matchPats_replicate_any (len v subs made)]
  length v subs made := by simp [len v subs made]
  vars := by simp [patVars]
  isP := by simp
  scopes := allScoped_replicate_any _ _
  typed := allTyped_replicate_any conTs arity

theorem opens_con {con : Constructor} {patterns : List Pattern} {p : Pos} {t : Ty}
    {conTs : List Ty} (conTyped : sig.args t con = some conTs)
    (patternsTyped : sig.AllTyped conTs patterns)
    (inScope : (patConstructor con patterns p).Scoped P n0)
    (seen : ∀ v subs, M v subs → S.view con v = some subs) :
    HeadOpens S sig P n0 M conTs (patConstructor con patterns p) patterns [] where
  matched ρ v subs made := by simp [matchPat, seen v subs made]
  length v subs made := by
    rw [patternsTyped.length_eq, sig.arity t con conTs conTyped,
      S.view_arity con v subs (seen v subs made)]
  vars := by simp [patVars]
  isP := by simp
  scopes := by simpa [Scoped] using inScope
  typed := patternsTyped

/-- A head that `get_column_sigma` accepts, without binds. -/
def Testable (subject : Texpr) (bindings : List (TVar × Texpr)) (pat : Pattern) : Prop :=
  NotBind pat ∧ head subject bindings pat ≠ .extractor ∧ head subject bindings pat ≠ .unexpected

theorem headScope {case : Case} {bindings : List (TVar × Texpr)} {pat : Pattern}
    {patterns : List Pattern} (inScope : RowScoped P n0 n ⟨case, bindings, pat :: patterns⟩) :
    pat.Scoped P n0 := by
  have patterns := inScope.patterns
  simp only [AllScoped] at patterns
  exact patterns.1

/-- Specializing a stripped row by the constructor that made the value. -/
theorem specializeRow_keeps (uniform : sig.UniformFields) (disjoint : S.Disjoint sig)
    {subject : Texpr} {case : Case} {bindings : List (TVar × Texpr)} {pat : Pattern}
    {patterns : List Pattern} {con : Constructor} {t : Ty} {conTs ts : List Ty}
    (free : ∀ y ∈ subject.vars, y < n ∧ ¬ P y) (testable : Testable subject bindings pat)
    (conTyped : sig.args t con = some conTs) (typed : sig.AllTyped (t :: ts) (pat :: patterns))
    (inScope : RowScoped P n0 n ⟨case, bindings, pat :: patterns⟩) :
    Keeps S sig P n0 n (fun v subs => S.view con v = some subs) subject
      (specializeRow subject con case bindings (pat :: patterns)).toList (conTs ++ ts)
      ⟨case, bindings, pat :: patterns⟩ := by
  obtain ⟨headTyped, -⟩ := allTyped_cons.mp typed
  have scope := headScope inScope
  have arity := sig.arity t con conTs conTyped
  have subsLen : ∀ v subs, S.view con v = some subs → subs.length = con.arity := S.view_arity con
  cases pat with
  | patConstructor con' patterns1 p =>
    obtain ⟨conTs', conTyped', patternsTyped⟩ := wellTyped_constructor.mp headTyped
    cases equal : con.equal con' with
    | true =>
      obtain rfl := uniform.eq_of_equal conTyped conTyped' equal
      obtain rfl := Option.some.inj (conTyped.symm.trans conTyped')
      simpa [specializeRow, openedRow] using keeps_opened free
        (opens_con conTyped patternsTyped scope fun v subs seen => seen) typed inScope
    | false =>
      rw [specializeRow, equal]
      refine keeps_unmatched fun ρ v subs seen => ?_
      have unseen : S.view con' v = none :=
        disjoint.unseen (t := t) (.inl (by simp [conTyped])) (.inl (by simp [conTyped'])) equal
          (by simp [seen])
      simp [matchPat, unseen]
  | patVariable x p =>
    simpa [specializeRow, openedRow] using keeps_opened free
      (opens_variable p (by simpa [Scoped] using scope) arity subsLen) typed inScope
  | patAny p =>
    simpa [specializeRow, openedRow] using keeps_opened free (opens_any p arity subsLen) typed inScope
  | patBind v pat p => exact absurd rfl (testable.1 v pat p)
  | patExtractor | patOr | patTuple => simp [Testable, head] at testable

/-- Dropping the column of a stripped row, for a value that no constructor made. -/
theorem defaultRow_keeps {subject : Texpr} {case : Case} {bindings : List (TVar × Texpr)}
    {pat : Pattern} {patterns : List Pattern} {t : Ty} {ts : List Ty}
    {M : Value → List Value → Prop} (free : ∀ y ∈ subject.vars, y < n ∧ ¬ P y)
    (testable : Testable subject bindings pat) (empty : ∀ v subs, M v subs → subs = [])
    (unseen : ∀ v subs, M v subs → ∀ con patterns1 p, pat = patConstructor con patterns1 p →
      S.view con v = none)
    (typed : sig.AllTyped (t :: ts) (pat :: patterns))
    (inScope : RowScoped P n0 n ⟨case, bindings, pat :: patterns⟩) :
    Keeps S sig P n0 n M subject (defaultRow subject case bindings (pat :: patterns)).toList ts
      ⟨case, bindings, pat :: patterns⟩ := by
  have scope := headScope inScope
  have len : ∀ v subs, M v subs → subs.length = 0 := fun v subs made => by rw [empty v subs made]; rfl
  cases pat with
  | patConstructor con' patterns1 p =>
    rw [defaultRow]
    · exact keeps_unmatched fun ρ v subs made => by
        simp [matchPat, unseen v subs made con' patterns1 p rfl]
    all_goals simp
  | patVariable x p =>
    simpa [defaultRow, openedRow] using keeps_opened free
      (opens_variable p (by simpa [Scoped] using scope) (rfl : ([] : List Ty).length = 0) len)
      typed inScope
  | patAny p =>
    simpa [defaultRow, openedRow] using keeps_opened free
      (opens_any p (rfl : ([] : List Ty).length = 0) len)
      typed inScope
  | patBind v pat p => exact absurd rfl (testable.1 v pat p)
  | patExtractor | patOr | patTuple => simp [Testable, head] at testable

theorem nullRow_of_ne {subject : Texpr} {case : Case} {bindings : List (TVar × Texpr)}
    {con : Constructor} {patterns1 patterns : List Pattern} {p : Pos}
    (notNull : con ≠ .conConst .tNull) :
    nullRow subject ⟨case, bindings, patConstructor con patterns1 p :: patterns⟩ = none := by
  rcases con with (_ | _ | _ | _ | _ | _ | _) | _ | _ | _ | _ | _ <;> simp_all [nullRow, head]

/-- The row for `null`, or else the default row, of a stripped row for the value `null`. -/
theorem nullRow_keeps (disjoint : S.Disjoint sig) {subject : Texpr} {case : Case}
    {bindings : List (TVar × Texpr)} {pat : Pattern} {patterns : List Pattern} {t : Ty}
    {ts : List Ty} (free : ∀ y ∈ subject.vars, y < n ∧ ¬ P y)
    (testable : Testable subject bindings pat) (typed : sig.AllTyped (t :: ts) (pat :: patterns))
    (inScope : RowScoped P n0 n ⟨case, bindings, pat :: patterns⟩) :
    Keeps S sig P n0 n (fun v subs => S.isNull v = true ∧ subs = []) subject
      ((nullRow subject ⟨case, bindings, pat :: patterns⟩).toList ++
        (defaultRow subject case bindings (pat :: patterns)).toList) ts
      ⟨case, bindings, pat :: patterns⟩ := by
  obtain ⟨headTyped, -⟩ := allTyped_cons.mp typed
  have scope := headScope inScope
  cases pat with
  | patConstructor con' patterns1 p =>
    obtain ⟨conTs', conTyped', patternsTyped⟩ := wellTyped_constructor.mp headTyped
    by_cases same : con' = .conConst .tNull
    · subst same
      obtain rfl : conTs' = [] := List.length_eq_zero_iff.mp (sig.arity t _ conTs' conTyped')
      have opens : HeadOpens S sig P n0 (fun v subs => S.isNull v = true ∧ subs = []) []
          (patConstructor (.conConst .tNull) patterns1 p) patterns1 [] := by
        refine opens_con conTyped' patternsTyped scope ?_
        rintro v subs ⟨isNull, rfl⟩
        obtain ⟨subs, seen⟩ := Option.isSome_iff_exists.mp isNull
        obtain rfl : subs = [] := List.length_eq_zero_iff.mp (S.view_arity _ _ subs seen)
        exact seen
      obtain rfl : patterns1 = [] := List.length_eq_zero_iff.mp patternsTyped.length_eq
      have none : defaultRow subject case bindings
          (patConstructor (.conConst .tNull) [] p :: patterns) = none := by rw [defaultRow] <;> simp
      simpa [nullRow, head, none, openedRow] using keeps_opened free opens typed inScope
    · have different : (Constructor.conConst .tNull).equal con' = false := by
        cases con' <;> simp_all [Constructor.equal, eq_comm]
      rw [nullRow_of_ne same]
      refine defaultRow_keeps free testable (fun _ _ made => made.2) ?_ typed inScope
      rintro v subs ⟨isNull, -⟩ con patterns2 q found
      obtain ⟨rfl, -, -⟩ := Pattern.patConstructor.inj found
      exact disjoint.unseen (t := t) (.inr rfl) (.inl (by simp [conTyped'])) different isNull
  | patVariable x p =>
    simpa [nullRow, head] using
      defaultRow_keeps free testable (fun _ _ made => made.2) (by simp) typed inScope
  | patAny p =>
    simpa [nullRow, head] using
      defaultRow_keeps free testable (fun _ _ made => made.2) (by simp) typed inScope
  | patBind v pat p => exact absurd rfl (testable.1 v pat p)
  | patExtractor | patOr | patTuple => simp [Testable, head] at testable

end Haxe.Source.Typing.Compile
