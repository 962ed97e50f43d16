import Haxe.Source.Typing.CompileWeight

/-!
# The recursion of `compile`

`compile_switch` raises `Extractor` while it looks at the column, before it compiles
anything, and `compile` then calls `compile_extractors`; here `compile` looks at the
column itself. A `Context` holds what the recursion does not change.
-/

namespace Haxe.Source.Typing.Compile
open Pattern Constructor

structure Context (Ty : Type) where
  sig : Signature Ty
  order : FoldOrder
  isExplicitNull : Ty → Bool

variable {Ty : Type}

/-- The rows and subjects that a switch is made for. -/
def prepare (subjects : List (Subject Ty)) (rows : List Row) : List (Subject Ty) × List Row :=
  let (subjects, rows) := selectColumn subjects (expand rows)
  (subjects, expand rows)

theorem rowsWeight_prepare (subjects : List (Subject Ty)) (rows : List Row) :
    rowsWeight (prepare subjects rows).2 = rowsWeight rows := by
  simp [prepare, rowsWeight_expand, rowsWeight_selectColumn]

theorem length_prepare (subjects : List (Subject Ty)) (rows : List Row) :
    (prepare subjects rows).1.length = subjects.length := by
  simp [prepare, length_selectColumn]

mutual

@[grind =]
def compile (ctx : Context Ty) (fresh : Nat) (subjects : List (Subject Ty)) (rows : List Row) :
    Except MatchFailure (Dt Ty × Nat) :=
  match rows with
  | [] => .ok (.fail, fresh)
  | row :: rest =>
    if row.patterns.all isWildcardPattern then compileLeaf ctx fresh subjects row rest
    else
      match _prepared : prepare subjects (row :: rest) with
      | ([], _) => .error .internalMatchFailure
      | (subject :: subjects', rows') =>
        match column : getColumnSigma subject.expr [] [] rows' with
        | .ok (sigma, null) => compileSwitch ctx fresh subject subjects' rows' sigma null column
        | .error .extractor =>
          compileExtractors ctx fresh subject subjects' rows' (getColumnSigma_extractor column)
        | .error failure => .error failure
termination_by (rowsWeight rows, subjects.length, 2, 0)
decreasing_by
  · exact .right _ (.right _ (.left _ _ (by omega)))
  all_goals
    have sameWeight := rowsWeight_prepare subjects (row :: rest)
    have sameLength := length_prepare subjects (row :: rest)
    rw [_prepared] at sameWeight sameLength
    simp only [List.length_cons] at sameWeight sameLength
    rw [← sameWeight, ← sameLength]
    exact .right _ (.right _ (.left _ _ (by omega)))

def compileLeaf (ctx : Context Ty) (fresh : Nat) (subjects : List (Subject Ty)) (row : Row)
    (rest : List Row) : Except MatchFailure (Dt Ty × Nat) := do
  let (dt, fresh) ← match row.case.caseGuard with
    | none => .ok (.leaf row.case, fresh)
    | some e => do
      let (dt2, fresh) ← compile ctx fresh subjects rest
      .ok (.guard e (.leaf row.case) dt2, fresh)
  let bindings ← leafBindings row.bindings row.patterns subjects
  .ok (if bindings.isEmpty then dt else .bind bindings.reverse dt, fresh)
termination_by (rowsWeight (row :: rest), subjects.length, 1, 0)
decreasing_by
  exact .left _ _ (by simpa using weights_pos row.patterns)

def compileSwitch (ctx : Context Ty) (fresh : Nat) (subject : Subject Ty)
    (subjects : List (Subject Ty)) (rows : List Row) (sigma : List (Constructor × Bool))
    (null : List Row) (column : getColumnSigma subject.expr [] [] rows = .ok (sigma, null)) :
    Except MatchFailure (Dt Ty × Nat) := do
  let (switchCases, fresh) ← compileCases ctx fresh subject subjects rows (ctx.order.order sigma)
    fun entry member => by
      have sound := (getColumnSigma_sound column).2.1 entry (ctx.order.mem_order.mp member)
      simpa using sound
  let (switchDefault, fresh) ← compile ctx fresh subjects (default subject.expr rows)
  let dt := if switchCases.isEmpty then switchDefault else .switch subject switchCases switchDefault
  match notNull : null with
  | [] =>
    .ok (if ctx.isExplicitNull subject.etype then .guardNull subject switchDefault dt else dt, fresh)
  | _ :: _ => do
    let (dtNull, fresh) ← compile ctx fresh subjects (null ++ default subject.expr rows)
    .ok (.guardNull subject dtNull dt, fresh)
termination_by (rowsWeight rows, subjects.length + 1, 1, 0)
decreasing_by
  · exact .right _ (.right _ (.left _ _ (by omega)))
  · exact Prod.Lex.right' _ (rowsWeight_default_le _ _) (.left _ _ (by omega))
  · have nulls := (getColumnSigma_sound column).1
    have lighter := (rowsWeight_null_default subject.expr rows).2
    simp only [List.nil_append] at nulls
    rw [← nulls] at lighter
    exact .left _ _ (by simpa [notNull, Nat.add_assoc] using lighter (by simp [notNull]))

def compileCases (ctx : Context Ty) (fresh : Nat) (subject : Subject Ty)
    (subjects : List (Subject Ty)) (rows : List Row) (sigma : List (Constructor × Bool))
    (heads : ∀ entry ∈ sigma, ∃ row ∈ rows, headOf subject.expr row = .con entry.1) :
    Except MatchFailure (List (Constructor × Bool × Dt Ty) × Nat) :=
  match sigma with
  | [] => .ok ([], fresh)
  | (con, unguarded) :: sigma => do
    let subSubjects := getSubSubjects ctx.sig subject con
    let (bindings, locals) := genLocals fresh subSubjects
    let (dt, fresh) ← compile ctx (fresh + subSubjects.length) (locals ++ subjects)
      (specialize subject.expr con rows)
    let (switchCases, fresh) ← compileCases ctx fresh subject subjects rows sigma
      fun entry member => heads entry (.tail _ member)
    .ok ((con, unguarded, .bind bindings dt) :: switchCases, fresh)
termination_by (rowsWeight rows, subjects.length + 1, 0, sigma.length)
decreasing_by
  · exact .left _ _ (rowsWeight_specialize_lt (heads _ List.mem_cons_self))
  · exact .right _ (.right _ (.right _ (by simp)))

def compileExtractors (ctx : Context Ty) (fresh : Nat) (subject : Subject Ty)
    (subjects : List (Subject Ty)) (rows : List Row)
    (_extractor : ∃ row ∈ rows, headOf subject.expr row = .extractor) :
    Except MatchFailure (Dt Ty × Nat) :=
  let num := numExtractors subject.expr rows
  match _extracted : extractRows ctx.sig subject num fresh 0 num [] rows with
  | .error failure => .error failure
  | .ok result => do
    let (dt, fresh) ← compile ctx result.fresh (subject :: result.subjects ++ subjects) result.rows
    .ok (.bind (result.bindings.map fun entry => (entry.v, entry.e1)) dt, fresh)
termination_by (rowsWeight rows, subjects.length + 1, 1, 0)
decreasing_by
  exact .left _ _ ((extractRows_weight _extracted).2 _extractor)

end

/-- The subjects that `compile` reads directly, and the variables for the others. -/
def topSubjects (fresh : Nat) : List (Subject Ty) →
    List (Subject Ty) × List (TVar × Texpr) × Nat
  | [] => ([], [], fresh)
  | e :: el =>
    match e.expr with
    | .tConst _ | .tLocal _ =>
      let (subjects, vars, fresh) := topSubjects fresh el
      (e :: subjects, vars, fresh)
    | _ =>
      let (subjects, vars, fresh') := topSubjects (fresh + 1) el
      (⟨.tLocal fresh, e.etype⟩ :: subjects, (fresh, e.expr) :: vars, fresh')

/-- The `compile` of the module: every row starts as one pattern and no bindings. -/
def compileTop (ctx : Context Ty) (fresh : Nat) (subjects : List (Subject Ty))
    (cases : List (Case × Pattern)) : Except MatchFailure (Dt Ty) :=
  let (subjects, vars, fresh) := topSubjects fresh subjects
  match cases, subjects with
  | [], subject :: _ => .ok (.switch subject [] .fail)
  | _, _ => do
    let (dt, _) ← compile ctx fresh subjects
      (cases.map fun (case, pat) => ⟨case, [], [pat]⟩)
    .ok (if vars.isEmpty then dt else .bind vars dt)

end Haxe.Source.Typing.Compile

/-!
## Which row is the first to match

A row matches with the bindings of its patterns if its guard holds there. `P` are the
variables of patterns, and other source variables are below `n0`; subjects and what
extractors compute do not depend on the variables in `P`, so running `Bind` nodes does
not change which rows match.
-/

namespace Haxe.Source.Typing
open Pattern Compile

namespace Texpr

theorem mem_vars_subst {v : TVar} {subject e : Texpr} {y : TVar}
    (member : y ∈ (subst v subject e).vars) : y ∈ subject.vars ∨ (y ∈ e.vars ∧ y ≠ v) := by
  induction e with
  | tLocal v' => by_cases same : v' = v <;> simp_all [subst, vars]
  | tConst | tPure => simp [subst, vars] at member
  | tSub e con i ih => exact ih (by simpa [subst, vars] using member)
  | tApp f x ihf ihx =>
    simp only [subst, vars, List.mem_append] at member
    rcases member with member | member
    · exact (ihf member).imp_right fun ⟨inside, ne⟩ => ⟨by simp [vars, inside], ne⟩
    · exact (ihx member).imp_right fun ⟨inside, ne⟩ => ⟨by simp [vars, inside], ne⟩

end Texpr

namespace Pattern

mutual

/-- The variables a pattern binds, in the first alternative of its or-patterns. -/
@[grind =] def patVars : Pattern → List TVar
  | patConstructor _ patterns _ => patsVars patterns
  | patVariable v _ => [v]
  | patAny _ => []
  | patBind v pat _ => v :: patVars pat
  | patOr pat1 _ _ => patVars pat1
  | patTuple patterns _ => patsVars patterns
  | patExtractor _ _ pat _ => patVars pat

@[grind =] def patsVars : List Pattern → List TVar
  | [] => []
  | pat :: pats => patVars pat ++ patsVars pats

end

mutual

/-- What `make` ensures: the alternatives of an or-pattern bind the same variables, and
extractor expressions see `_` and the variables outside of the switch. -/
@[grind =] def Scoped (P : TVar → Prop) (n0 : Nat) : Pattern → Prop
  | patConstructor _ patterns _ => AllScoped P n0 patterns
  | patVariable v _ => P v
  | patAny _ => True
  | patBind v pat _ => P v ∧ Scoped P n0 pat
  | patOr pat1 pat2 _ =>
    (patVars pat1).Perm (patVars pat2) ∧ Scoped P n0 pat1 ∧ Scoped P n0 pat2
  | patTuple patterns _ => AllScoped P n0 patterns
  | patExtractor v e pat _ => (∀ y ∈ e.vars, y ≠ v → y < n0 ∧ ¬ P y) ∧ Scoped P n0 pat

@[grind =] def AllScoped (P : TVar → Prop) (n0 : Nat) : List Pattern → Prop
  | [] => True
  | pat :: pats => Scoped P n0 pat ∧ AllScoped P n0 pats

end

@[simp] theorem patsVars_append (pats pats' : List Pattern) :
    patsVars (pats ++ pats') = patsVars pats ++ patsVars pats' := by
  induction pats with
  | nil => simp [patsVars]
  | cons pat pats ih => simp [patsVars, ih]

@[simp] theorem allScoped_append {P : TVar → Prop} {n0 : Nat} {pats pats' : List Pattern} :
    AllScoped P n0 (pats ++ pats') ↔ AllScoped P n0 pats ∧ AllScoped P n0 pats' := by
  induction pats with
  | nil => simp [AllScoped]
  | cons pat pats ih => simp [AllScoped, ih, and_assoc]

@[simp] theorem patsVars_replicate_any (n : Nat) (p : Pos) :
    patsVars (List.replicate n (patAny p)) = [] := by
  induction n with
  | zero => rfl
  | succ n ih => simp [List.replicate_succ, patsVars, patVars, ih]

@[simp] theorem allScoped_replicate_any {P : TVar → Prop} {n0 : Nat} (n : Nat) (p : Pos) :
    AllScoped P n0 (List.replicate n (patAny p)) := by
  induction n with
  | zero => trivial
  | succ n ih => exact ⟨trivial, ih⟩

end Pattern

namespace Semantics

variable {Value : Type} (S : Semantics Value)

/-- The environment in which a guard is evaluated: the bindings first. -/
@[grind =]
def extend (ρ : Env Value) (β : Bindings Value) : Env Value := fun x => (β.lookup x).getD (ρ x)

@[grind =] def guardHolds (ρ : Env Value) (case : Case) (β : Bindings Value) : Bool :=
  match case.caseGuard with
  | none => true
  | some g => S.truth (S.eval (extend ρ β) g)

def bound (ρ : Env Value) (bindings : List (TVar × Texpr)) : Bindings Value :=
  bindings.map fun (x, e) => (x, S.eval ρ e)

def rowMatches (ρ : Env Value) (row : Row) (vs : List Value) : List (Bindings Value) :=
  (S.matchPats ρ row.patterns vs).map (S.bound ρ row.bindings ++ ·)

/-- The row matches the values with the bindings `β`, and its guard holds there. -/
def Taken (ρ : Env Value) (row : Row) (vs : List Value) (β : Bindings Value) : Prop :=
  β ∈ S.rowMatches ρ row vs ∧ S.guardHolds ρ row.case β = true

/-! ## Agreeing environments -/

/-- Agreement on the variables that subjects and extractors may read. -/
def Agree (P : TVar → Prop) (n : Nat) (ρ ρ' : Env Value) : Prop := ∀ y < n, ¬ P y → ρ y = ρ' y

variable {S} {P : TVar → Prop} {n n' n0 : Nat} {ρ ρ' ρ'' : Env Value}

theorem Agree.trans (agree : Agree P n ρ ρ') (agree' : Agree P n ρ' ρ'') : Agree P n ρ ρ'' :=
  fun y bound free => (agree y bound free).trans (agree' y bound free)

theorem Agree.mono (agree : Agree P n ρ ρ') (le : n' ≤ n) : Agree P n' ρ ρ' :=
  fun y bound free => agree y (Nat.lt_of_lt_of_le bound le) free

theorem eval_congr {e : Texpr} (same : ∀ y ∈ e.vars, ρ y = ρ' y) : S.eval ρ e = S.eval ρ' e := by
  induction e with
  | tLocal v => exact same v (by simp [Texpr.vars])
  | tConst | tPure => rfl
  | tSub e con i ih => simp [eval, ih (by simpa [Texpr.vars] using same)]
  | tApp f x ihf ihx =>
    simp only [Texpr.vars, List.mem_append] at same
    simp [eval, ihf fun y member => same y (.inl member), ihx fun y member => same y (.inr member)]

theorem eval_agree {e : Texpr} (agree : Agree P n ρ ρ') (free : ∀ y ∈ e.vars, y < n ∧ ¬ P y) :
    S.eval ρ e = S.eval ρ' e :=
  eval_congr fun y member => agree y (free y member).1 (free y member).2

theorem eval_subst {v : TVar} {subject e : Texpr} :
    S.eval ρ (Texpr.subst v subject e) =
      S.eval (Function.update ρ v (S.eval ρ subject)) e := by
  induction e with
  | tLocal v' => by_cases same : v' = v <;> simp [Texpr.subst, eval, same]
  | tConst | tPure => rfl
  | tSub e con i ih => simp [Texpr.subst, eval, ih]
  | tApp f x ihf ihx => simp [Texpr.subst, eval, ihf, ihx]

/-! ## `Bind` nodes -/

theorem bindAll_of_notMem {bindings : List (TVar × Texpr)} {y : TVar}
    (new : y ∉ bindings.map Prod.fst) : S.bindAll ρ bindings y = ρ y := by
  induction bindings generalizing ρ with
  | nil => rfl
  | cons b bindings ih =>
    obtain ⟨x, e⟩ := b
    simp only [List.map_cons, List.mem_cons, not_or] at new
    rw [bindAll, ih new.2, Function.update_of_ne new.1]

/-- Bindings that do not read each other give each variable its value from before. -/
theorem bindAll_of_mem {bindings : List (TVar × Texpr)} (nodup : (bindings.map Prod.fst).Nodup)
    (independent : ∀ b ∈ bindings, ∀ y ∈ b.2.vars, y ∉ bindings.map Prod.fst) {x : TVar}
    {e : Texpr} (member : (x, e) ∈ bindings) : S.bindAll ρ bindings x = S.eval ρ e := by
  induction bindings generalizing ρ with
  | nil => cases member
  | cons b bindings ih =>
    obtain ⟨x', e'⟩ := b
    simp only [List.map_cons, List.nodup_cons] at nodup
    rw [bindAll]
    rcases List.mem_cons.mp member with same | member
    · obtain ⟨rfl, rfl⟩ := Prod.mk.inj same
      rw [bindAll_of_notMem nodup.1, Function.update_self]
    · rw [ih nodup.2 (fun b inside y read => fun again =>
        independent b (.tail _ inside) y read (.tail _ again)) member]
      refine eval_congr fun y read => Function.update_of_ne (fun same => ?_) _ _
      exact independent (x, e) (.tail _ member) y read (same ▸ List.mem_cons_self)

mutual

theorem matchPat_agree (agree : Agree P n0 ρ ρ') (pat : Pattern) (inScope : pat.Scoped P n0)
    (seg : List Value) : S.matchPat ρ pat seg = S.matchPat ρ' pat seg := by
  match pat, seg with
  | patConstructor con patterns p, [v] =>
    cases seen : S.view con v with
    | none => simp [matchPat, seen]
    | some subs =>
      simpa [matchPat, seen] using
        matchPats_agree agree patterns (by simpa [Scoped] using inScope) subs
  | patVariable x p, [v] | patAny p, [v] => simp [matchPat]
  | patBind x pat p, [v] =>
    simp only [Scoped] at inScope
    simp [matchPat, matchPat_agree agree pat inScope.2 [v]]
  | patOr pat1 pat2 p, seg =>
    simp only [Scoped] at inScope
    simp [matchPat, matchPat_agree agree pat1 inScope.2.1 seg,
      matchPat_agree agree pat2 inScope.2.2 seg]
  | patTuple patterns p, seg =>
    simpa [matchPat] using matchPats_agree agree patterns (by simpa [Scoped] using inScope) seg
  | patExtractor x e pat p, [v] =>
    simp only [Scoped] at inScope
    have same : S.eval (Function.update ρ x v) e = S.eval (Function.update ρ' x v) e := by
      refine eval_congr fun y member => ?_
      by_cases isX : y = x
      · simp [isX]
      · obtain ⟨bound, free⟩ := inScope.1 y member isX
        simpa [isX] using agree y bound free
    simp [matchPat, same, matchPat_agree agree pat inScope.2 _]
  | patConstructor _ _ _, [] | patVariable _ _, [] | patAny _, [] | patBind _ _ _, []
  | patExtractor _ _ _ _, [] | patConstructor _ _ _, _ :: _ :: _ | patVariable _ _, _ :: _ :: _
  | patAny _, _ :: _ :: _ | patBind _ _ _, _ :: _ :: _ | patExtractor _ _ _ _, _ :: _ :: _ =>
    simp [matchPat]

theorem matchPats_agree (agree : Agree P n0 ρ ρ') (pats : List Pattern)
    (inScope : AllScoped P n0 pats) (vs : List Value) :
    S.matchPats ρ pats vs = S.matchPats ρ' pats vs := by
  match pats, vs with
  | [], [] | [], _ :: _ | _ :: _, [] => simp [matchPats]
  | pat :: pats, v :: vs =>
    simp only [AllScoped] at inScope
    simp [matchPats, matchPat_agree agree pat inScope.1 [v], matchPats_agree agree pats inScope.2 vs]

end

mutual

/-- A match binds the variables of the pattern. -/
theorem keys_matchPat (pat : Pattern) (inScope : pat.Scoped P n0) (seg : List Value)
    (β : Bindings Value) (matched : β ∈ S.matchPat ρ pat seg) :
    (β.map Prod.fst).Perm (patVars pat) := by
  match pat, seg with
  | patConstructor con patterns p, [v] =>
    cases seen : S.view con v with
    | none => simp [matchPat, seen] at matched
    | some subs =>
      exact keys_matchPats patterns (by simpa [Scoped] using inScope) subs β
        (by simpa [matchPat, seen] using matched)
  | patVariable x p, [v] | patAny p, [v] => simp_all [matchPat, patVars]
  | patBind x pat p, [v] =>
    simp only [Scoped] at inScope
    obtain ⟨β', inner, rfl⟩ : ∃ β', β' ∈ S.matchPat ρ pat [v] ∧ (x, v) :: β' = β := by
      simpa [matchPat] using matched
    simpa [patVars] using keys_matchPat pat inScope.2 [v] β' inner
  | patOr pat1 pat2 p, seg =>
    simp only [Scoped] at inScope
    rcases (by simpa [matchPat] using matched) with matched | matched
    · exact keys_matchPat pat1 inScope.2.1 seg β matched
    · exact (keys_matchPat pat2 inScope.2.2 seg β matched).trans inScope.1.symm
  | patTuple patterns p, seg =>
    exact keys_matchPats patterns (by simpa [Scoped] using inScope) seg β
      (by simpa [matchPat] using matched)
  | patExtractor x e pat p, [v] =>
    simp only [Scoped] at inScope
    exact keys_matchPat pat inScope.2 _ β (by simpa [matchPat] using matched)
  | patConstructor _ _ _, [] | patVariable _ _, [] | patAny _, [] | patBind _ _ _, []
  | patExtractor _ _ _ _, [] | patConstructor _ _ _, _ :: _ :: _ | patVariable _ _, _ :: _ :: _
  | patAny _, _ :: _ :: _ | patBind _ _ _, _ :: _ :: _ | patExtractor _ _ _ _, _ :: _ :: _ =>
    simp [matchPat] at matched

theorem keys_matchPats (pats : List Pattern) (inScope : AllScoped P n0 pats) (vs : List Value)
    (β : Bindings Value) (matched : β ∈ S.matchPats ρ pats vs) :
    (β.map Prod.fst).Perm (patsVars pats) := by
  match pats, vs with
  | [], [] => simp_all [matchPats, patsVars]
  | [], _ :: _ | _ :: _, [] => simp [matchPats] at matched
  | pat :: pats, v :: vs =>
    simp only [AllScoped] at inScope
    obtain ⟨first, firstMatched, second, secondMatched, rfl⟩ :
        ∃ first ∈ S.matchPat ρ pat [v], ∃ second ∈ S.matchPats ρ pats vs, first ++ second = β := by
      simpa [matchPats, product] using matched
    rw [List.map_append]
    exact (keys_matchPat pat inScope.1 [v] first firstMatched).append
      (keys_matchPats pats inScope.2 vs second secondMatched)

end

/-! ## Rows in scope -/

def rowVars (row : Row) : List TVar := row.bindings.map Prod.fst ++ patsVars row.patterns

/-- What holds of a row all along: `n` bounds the variables made so far. -/
structure RowScoped (P : TVar → Prop) (n0 n : Nat) (row : Row) : Prop where
  bindings : ∀ b ∈ row.bindings, P b.1 ∧ ∀ y ∈ b.2.vars, y < n ∧ ¬ P y
  patterns : AllScoped P n0 row.patterns
  nodup : (rowVars row).Nodup
  guard : ∀ g, row.case.caseGuard = some g → ∀ y ∈ g.vars, y < n0 ∧ (P y → y ∈ rowVars row)

theorem RowScoped.mono {row : Row} (inScope : RowScoped P n0 n row) (le : n ≤ n') :
    RowScoped P n0 n' row where
  bindings b member :=
    ⟨(inScope.bindings b member).1, fun y inside =>
      ⟨Nat.lt_of_lt_of_le ((inScope.bindings b member).2 y inside).1 le,
        ((inScope.bindings b member).2 y inside).2⟩⟩
  patterns := inScope.patterns
  nodup := inScope.nodup
  guard := inScope.guard

theorem keys_rowMatches {row : Row} (inScope : RowScoped P n0 n row) {vs : List Value}
    {β : Bindings Value} (matched : β ∈ S.rowMatches ρ row vs) :
    (β.map Prod.fst).Perm (rowVars row) := by
  obtain ⟨μ, member, rfl⟩ := List.mem_map.mp matched
  have keys := keys_matchPats row.patterns inScope.patterns vs μ member
  simpa [rowVars, bound, Function.comp_def] using keys.append_left (row.bindings.map Prod.fst)

theorem rowMatches_agree {row : Row} (inScope : RowScoped P n0 n row) (le : n0 ≤ n)
    (agree : Agree P n ρ ρ') (vs : List Value) :
    S.rowMatches ρ row vs = S.rowMatches ρ' row vs := by
  have same : S.bound ρ row.bindings = S.bound ρ' row.bindings :=
    List.map_congr_left fun b member => by
      simp [eval_agree agree (inScope.bindings b member).2]
  rw [rowMatches, rowMatches, matchPats_agree (agree.mono le) row.patterns inScope.patterns, same]

theorem mem_lookup_of_nodup {β : Bindings Value} (nodup : (β.map Prod.fst).Nodup) {x : TVar}
    {v : Value} : β.lookup x = some v ↔ (x, v) ∈ β := by
  induction β with
  | nil => simp
  | cons b β ih =>
    obtain ⟨y, w⟩ := b
    simp only [List.map_cons, List.nodup_cons, List.mem_map, not_exists, not_and] at nodup
    rw [List.lookup_cons]
    by_cases same : x = y
    · subst same
      simp only [beq_self_eq_true, Option.some.injEq, List.mem_cons, Prod.mk.injEq,
        true_and]
      constructor
      · rintro rfl
        exact .inl rfl
      · rintro (rfl | member)
        · rfl
        · exact absurd rfl (nodup.1 (x, v) member)
    · have ne : (x == y) = false := by simpa using same
      simp [ne, ih nodup.2, same]

theorem extend_perm {β β' : Bindings Value} (perm : β.Perm β') (nodup : (β.map Prod.fst).Nodup) :
    extend ρ β = extend ρ β' := by
  have nodup' : (β'.map Prod.fst).Nodup := (perm.map Prod.fst).nodup_iff.mp nodup
  have same : ∀ x, β.lookup x = β'.lookup x := by
    intro x
    apply Option.ext
    intro v
    rw [mem_lookup_of_nodup nodup, mem_lookup_of_nodup nodup', perm.mem_iff]
  funext x
  simp [extend, same]

theorem lookup_eq_none {β : Bindings Value} {x : TVar} (new : x ∉ β.map Prod.fst) :
    β.lookup x = none := by
  refine List.lookup_eq_none_iff.mpr fun b member => ?_
  simpa using fun same : x = b.1 => new (same ▸ List.mem_map_of_mem member)

theorem extend_of_mem {β : Bindings Value} (nodup : (β.map Prod.fst).Nodup) {b : TVar × Value}
    (member : b ∈ β) : extend ρ β b.1 = b.2 := by
  simp [extend, (mem_lookup_of_nodup nodup).mpr member]

/-- Binding variables of patterns leaves the others. -/
theorem agree_extend {β : Bindings Value} (isP : ∀ b ∈ β, P b.1) : Agree P n ρ (extend ρ β) := by
  intro y _ free
  have new : y ∉ β.map Prod.fst := fun member => by
    obtain ⟨b, inside, rfl⟩ := List.mem_map.mp member
    exact free (isP b inside)
  simp [extend, lookup_eq_none new]

/-- `Bind` nodes whose expressions do not read each other extend the environment. -/
theorem bindAll_eq_extend {bindings : List (TVar × Texpr)} (nodup : (bindings.map Prod.fst).Nodup)
    (independent : ∀ b ∈ bindings, ∀ y ∈ b.2.vars, y ∉ bindings.map Prod.fst) :
    S.bindAll ρ bindings = extend ρ (S.bound ρ bindings) := by
  have keys : (S.bound ρ bindings).map Prod.fst = bindings.map Prod.fst := by
    simp [bound, Function.comp_def]
  funext x
  by_cases member : x ∈ bindings.map Prod.fst
  · obtain ⟨b, inside, rfl⟩ := List.mem_map.mp member
    have found : (b.1, S.eval ρ b.2) ∈ S.bound ρ bindings := List.mem_map.mpr ⟨b, inside, rfl⟩
    rw [bindAll_of_mem nodup independent inside]
    exact (extend_of_mem (keys ▸ nodup) found).symm
  · rw [bindAll_of_notMem member, extend, lookup_eq_none (keys ▸ member), Option.getD_none]

theorem guardHolds_agree {row : Row} (inScope : RowScoped P n0 n row) (agree : Agree P n0 ρ ρ')
    {β : Bindings Value} (keys : (β.map Prod.fst).Perm (rowVars row)) :
    S.guardHolds ρ row.case β = S.guardHolds ρ' row.case β := by
  unfold guardHolds
  split
  · rfl
  · rename_i g guarded
    congr 1
    refine eval_congr fun y inside => ?_
    obtain ⟨bounded, covered⟩ := inScope.guard g guarded y inside
    unfold extend
    cases found : β.lookup y with
    | some v => rfl
    | none =>
      refine agree y bounded fun isP => ?_
      have member : y ∈ β.map Prod.fst := keys.mem_iff.mpr (covered isP)
      obtain ⟨⟨x, v⟩, inβ, rfl⟩ := List.mem_map.mp member
      have := (mem_lookup_of_nodup (keys.nodup_iff.mpr inScope.nodup)).mpr inβ
      simp [found] at this

/-- Whether a row is taken does not depend on the variables of patterns. -/
theorem taken_agree {row : Row} (inScope : RowScoped P n0 n row) (le : n0 ≤ n)
    (agree : Agree P n ρ ρ') {vs : List Value} {β : Bindings Value} :
    S.Taken ρ row vs β ↔ S.Taken ρ' row vs β := by
  unfold Taken
  rw [rowMatches_agree inScope le agree]
  refine and_congr_right fun matched => ?_
  rw [guardHolds_agree inScope (agree.mono le) (keys_rowMatches inScope matched)]

/-! ## The first row that is taken -/

def IsTaken (S : Semantics Value) (ρ : Env Value) (vs : List Value) (row : Row) : Prop :=
  ∃ β, S.Taken ρ row vs β

/-- The first row that is taken is for the case `c`. -/
inductive First (S : Semantics Value) (ρ : Env Value) (vs : List Value) (c : Case) :
    List Row → Prop
  | here {row rows} : row.case = c → IsTaken S ρ vs row → First S ρ vs c (row :: rows)
  | later {row rows} : ¬ IsTaken S ρ vs row → First S ρ vs c rows → First S ρ vs c (row :: rows)

theorem first_append {vs : List Value} {c : Case} {rows rows' : List Row} :
    First S ρ vs c (rows ++ rows') ↔
      First S ρ vs c rows ∨ (∀ row ∈ rows, ¬ IsTaken S ρ vs row) ∧ First S ρ vs c rows' := by
  induction rows with
  | nil =>
    constructor
    · exact fun first => .inr ⟨by simp, first⟩
    · rintro (first | ⟨-, first⟩)
      · cases first
      · exact first
  | cons row rows ih =>
    constructor
    · intro first
      cases first with
      | here same taken => exact .inl (.here same taken)
      | later free first =>
        rcases ih.mp first with first | ⟨all, first⟩
        · exact .inl (.later free first)
        · exact .inr ⟨by simpa using ⟨free, all⟩, first⟩
    · rintro (first | ⟨all, first⟩)
      · cases first with
        | here same taken => exact .here same taken
        | later free first => exact .later free (ih.mpr (.inl first))
      · exact .later (all row List.mem_cons_self)
          (ih.mpr (.inr ⟨fun row member => all row (.tail _ member), first⟩))

/-- Rows for one case: it is the first as soon as one of them is taken. -/
theorem first_of_same_case {vs : List Value} {c : Case} {rows : List Row}
    (same : ∀ row ∈ rows, row.case = c) {row : Row} (member : row ∈ rows)
    (taken : IsTaken S ρ vs row) : First S ρ vs c rows := by
  induction rows with
  | nil => cases member
  | cons first rows ih =>
    by_cases firstTaken : IsTaken S ρ vs first
    · exact .here (same first List.mem_cons_self) firstTaken
    · refine .later firstTaken (ih (fun row member => same row (.tail _ member)) ?_)
      rcases List.mem_cons.mp member with rfl | member
      · exact absurd taken firstTaken
      · exact member

theorem First.exists_taken {vs : List Value} {c : Case} {rows : List Row}
    (first : First S ρ vs c rows) : ∃ row ∈ rows, row.case = c ∧ IsTaken S ρ vs row := by
  induction first with
  | here same taken => exact ⟨_, List.mem_cons_self, same, taken⟩
  | later _ _ ih =>
    obtain ⟨row, member, rest⟩ := ih
    exact ⟨row, .tail _ member, rest⟩

theorem exists_first {vs : List Value} {rows : List Row} {row : Row} (member : row ∈ rows)
    (taken : IsTaken S ρ vs row) : ∃ c, First S ρ vs c rows := by
  induction rows with
  | nil => cases member
  | cons first rows ih =>
    by_cases firstTaken : IsTaken S ρ vs first
    · exact ⟨_, .here rfl firstTaken⟩
    · rcases List.mem_cons.mp member with rfl | member
      · exact absurd taken firstTaken
      · obtain ⟨c, found⟩ := ih member
        exact ⟨c, .later firstTaken found⟩

theorem First.unique {vs : List Value} {c c' : Case} {rows : List Row}
    (first : First S ρ vs c rows) (first' : First S ρ vs c' rows) : c = c' := by
  induction first with
  | here same taken =>
    cases first' with
    | here same' _ => exact same.symm.trans same'
    | later free _ => exact absurd taken free
  | later free _ ih =>
    cases first' with
    | here _ taken => exact absurd taken free
    | later _ first' => exact ih first'

/-- What a tree for the rows may evaluate to: the leaf of the first row that is taken,
with the variables of a match of that case, or nothing if no row is taken. -/
def Outcome (S : Semantics Value) (P : TVar → Prop) (n : Nat) (ρ : Env Value) (rows : List Row)
    (vs : List Value) : Option (Case × Env Value) → Prop
  | none => ∀ row ∈ rows, ¬ IsTaken S ρ vs row
  | some (c, ρ') => First S ρ vs c rows ∧ Agree P n ρ ρ' ∧
      ∃ row ∈ rows, row.case = c ∧ ∃ β, S.Taken ρ row vs β ∧ ∀ b ∈ β, ρ' b.1 = b.2

end Semantics

end Haxe.Source.Typing
