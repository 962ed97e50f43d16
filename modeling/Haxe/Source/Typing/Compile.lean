import Haxe.Source.Typing.Matching

/-!
# Decision trees

`hashcons` shares equal trees, which does not change what a tree is; here trees are
plain values. Running a tree binds variables as it goes and ends at a leaf or at `fail`.
-/

namespace Haxe.Source.Typing
open Pattern

/-- `Case.t`; the body of the case is known by `caseId`. -/
structure Case where
  caseId : Nat
  caseGuard : Option Texpr
  deriving DecidableEq, Repr

structure Subject (Ty : Type) where
  expr : Texpr
  etype : Ty
  deriving Repr

inductive Dt (Ty : Type) where
  | leaf (case : Case)
  | switch (subject : Subject Ty) (cases : List (Constructor × Bool × Dt Ty)) (default : Dt Ty)
  | bind (bindings : List (TVar × Texpr)) (dt : Dt Ty)
  | guard (e : Texpr) (dt1 dt2 : Dt Ty)
  | guardNull (subject : Subject Ty) (dt1 dt2 : Dt Ty)
  | fail

namespace Semantics

variable {Value Ty : Type} (S : Semantics Value)

def isNull (v : Value) : Bool := (S.view (.conConst .tNull) v).isSome

/-- A `Bind` node is a sequence of `let`s. -/
@[grind =] def bindAll (ρ : Env Value) : List (TVar × Texpr) → Env Value
  | [] => ρ
  | (x, e) :: bindings => bindAll (Function.update ρ x (S.eval ρ e)) bindings

mutual

/-- The case whose leaf is reached, and the variables there. -/
@[grind =] def evalDt (ρ : Env Value) : Dt Ty → Option (Case × Env Value)
  | .leaf case => some (case, ρ)
  | .switch subject cases default =>
    match evalCases ρ (S.eval ρ subject.expr) cases with
    | some reached => reached
    | none => evalDt ρ default
  | .bind bindings dt => evalDt (S.bindAll ρ bindings) dt
  | .guard e dt1 dt2 => if S.truth (S.eval ρ e) then evalDt ρ dt1 else evalDt ρ dt2
  | .guardNull subject dt1 dt2 =>
    if S.isNull (S.eval ρ subject.expr) then evalDt ρ dt1 else evalDt ρ dt2
  | .fail => none

/-- The first constructor that made the subject; `none` if there is none. -/
@[grind =] def evalCases (ρ : Env Value) (v : Value) :
    List (Constructor × Bool × Dt Ty) → Option (Option (Case × Env Value))
  | [] => none
  | (con, _, dt) :: cases =>
    if (S.view con v).isSome then some (evalDt ρ dt) else evalCases ρ v cases

end

end Semantics

end Haxe.Source.Typing

/-!
## `Compile`: from case rows to a decision tree

Fresh variables (`gen_local`, `alloc_var`) are numbered from a counter. The order in
which a hash table of constructors is folded is a parameter. Compilation ends because
each recursive call has rows of less `weight`, or as heavy ones and one column less.
-/

namespace Haxe.Source.Typing.Compile
open Pattern Constructor

structure Row where
  case : Case
  bindings : List (TVar × Texpr)
  patterns : List Pattern

/-- How `ConTable.fold` orders the constructors of a table. -/
structure FoldOrder where
  order : List (Constructor × Bool) → List (Constructor × Bool)
  mem_order : ∀ {cons con}, con ∈ order cons ↔ con ∈ cons

/-- The exceptions of the module. -/
inductive MatchFailure where
  | extractor
  | internalMatchFailure
  | error (msg : String)
  deriving DecidableEq, Repr

/-! ## Rows -/

@[grind =] def isWildcardPattern : Pattern → Bool
  | patVariable _ _ | patAny _ => true
  | patBind _ pat1 _ => isWildcardPattern pat1
  | _ => false

/-- `specialize` for one row; `none` rows are filtered out. -/
@[grind =] def specializeRow (subject : Texpr) (con : Constructor) (case : Case)
    (bindings : List (TVar × Texpr)) : List Pattern → Option Row
  | patConstructor con' patterns1 _ :: patterns2 =>
    if con.equal con' then some ⟨case, bindings, patterns1 ++ patterns2⟩ else none
  | patVariable v p :: patterns2 =>
    some ⟨case, (v, subject) :: bindings, List.replicate con.arity (patAny p) ++ patterns2⟩
  | patAny p :: patterns2 =>
    some ⟨case, bindings, List.replicate con.arity (patAny p) ++ patterns2⟩
  | patBind v pat1 _ :: patterns =>
    specializeRow subject con case ((v, subject) :: bindings) (pat1 :: patterns)
  | _ => none
termination_by patterns => sizes patterns
decreasing_by simp only [sizes, size]; omega

def specialize (subject : Texpr) (con : Constructor) (rows : List Row) : List Row :=
  rows.filterMap fun row => specializeRow subject con row.case row.bindings row.patterns

@[grind =] def defaultRow (subject : Texpr) (case : Case) (bindings : List (TVar × Texpr)) :
    List Pattern → Option Row
  | patVariable v _ :: patterns => some ⟨case, (v, subject) :: bindings, patterns⟩
  | patAny _ :: patterns => some ⟨case, bindings, patterns⟩
  | patBind v pat1 _ :: patterns =>
    defaultRow subject case ((v, subject) :: bindings) (pat1 :: patterns)
  | _ => none
termination_by patterns => sizes patterns
decreasing_by simp only [sizes, size]; omega

def default (subject : Texpr) (rows : List Row) : List Row :=
  rows.filterMap fun row => defaultRow subject row.case row.bindings row.patterns

/-- `expand` for one row; `f` puts the binds around the head back on. -/
@[grind =] def expandRow (f : Pattern → Pattern) (case : Case) (bindings : List (TVar × Texpr)) :
    List Pattern → List Row
  | patOr pat1 pat2 _ :: patterns =>
    expandRow f case bindings (pat1 :: patterns) ++ expandRow f case bindings (pat2 :: patterns)
  | patBind v pat1 p :: patterns =>
    expandRow (fun pat2 => f (patBind v pat2 p)) case bindings (pat1 :: patterns)
  | patTuple patterns1 _ :: patterns2 => expandRow f case bindings (patterns1 ++ patterns2)
  | pat :: patterns => [⟨case, bindings, f pat :: patterns⟩]
  | [] => [⟨case, bindings, []⟩]
termination_by patterns => sizes patterns
decreasing_by all_goals (simp only [sizes, size, sizes_append]; omega)

def expand (rows : List Row) : List Row :=
  rows.flatMap fun row => expandRow id row.case row.bindings row.patterns

/-! ## Columns -/

/-- The first column that is neither a wildcard nor an extractor, else column 0. -/
def columnIndex (i : Nat) : List Pattern → Nat
  | patVariable _ _ :: patterns | patAny _ :: patterns | patExtractor _ _ _ _ :: patterns =>
    columnIndex (i + 1) patterns
  | patBind _ pat1 _ :: patterns => columnIndex i (pat1 :: patterns)
  | [] => 0
  | _ => i
termination_by patterns => sizes patterns
decreasing_by all_goals (simp only [sizes, size]; omega)

/-- Moves column `i` to the front; the columns before it end up reversed. -/
@[grind =] def sort {α : Type} (i cur : Nat) (acc : List α) : List α → List α
  | x :: l => if i = cur then x :: acc ++ l else sort i (cur + 1) (x :: acc) l
  | [] => acc

@[grind =] def selectColumn {Ty : Type} (subjects : List (Subject Ty)) (rows : List Row) :
    List (Subject Ty) × List Row :=
  match rows with
  | [] => (subjects, rows)
  | first :: _ =>
    match columnIndex 0 first.patterns with
    | 0 => (subjects, rows)
    | i =>
      (sort i 0 [] subjects, rows.map fun row => { row with patterns := sort i 0 [] row.patterns })

/-! ## Constructors of a column -/

/-- What `get_column_sigma` finds at the head of a row. -/
inductive Head where
  | null (bindings : List (TVar × Texpr))
  | con (con : Constructor)
  | wildcard
  | extractor
  | unexpected
  deriving DecidableEq, Repr

@[grind =] def head (subject : Texpr) (bindings : List (TVar × Texpr)) : Pattern → Head
  | patConstructor (conConst .tNull) _ _ => .null bindings
  | patConstructor con _ _ => .con con
  | patBind v pat1 _ => head subject ((v, subject) :: bindings) pat1
  | patVariable _ _ | patAny _ => .wildcard
  | patExtractor _ _ _ _ => .extractor
  | _ => .unexpected

/-- `ConTable.replace`. -/
def replace (table : List (Constructor × Bool)) (con : Constructor) (unguarded : Bool) :
    List (Constructor × Bool) :=
  if table.any fun entry => entry.1.equal con then
    table.map fun entry => if entry.1.equal con then (con, entry.2 || unguarded) else entry
  else table ++ [(con, unguarded)]

/-- `get_column_sigma`: the constructors, each with whether an unguarded row has it, and
the rows for `null`. -/
@[grind =]
def getColumnSigma (subject : Texpr) (sigma : List (Constructor × Bool)) (null : List Row) :
    List Row → Except MatchFailure (List (Constructor × Bool) × List Row)
  | [] => .ok (sigma, null)
  | row :: rows =>
    match row.patterns with
    | [] => .error (.error "hd")
    | pat :: patterns =>
      match head subject row.bindings pat with
      | .null bindings =>
        getColumnSigma subject sigma (null ++ [⟨row.case, bindings, patterns⟩]) rows
      | .con con => getColumnSigma subject (replace sigma con row.case.caseGuard.isNone) null rows
      | .wildcard => getColumnSigma subject sigma null rows
      | .extractor => .error .extractor
      | .unexpected => .error (.error "Unexpected pattern: ")

/-! ## Extractors -/

/-- The extractor at the head of a row, under its binds. -/
@[grind =] def extractorOf (subject : Texpr) (bindings : List (TVar × Texpr)) :
    Pattern → Option (TVar × Texpr × Pattern × List (TVar × Texpr))
  | patExtractor v e1 pat _ => some (v, e1, pat, bindings)
  | patBind v pat1 _ => extractorOf subject ((v, subject) :: bindings) pat1
  | _ => none

def makeOffsetList {α : Type} (left right : Nat) (middle other : α) : List α :=
  List.replicate left other ++ [middle] ++ List.replicate right other

/-- An entry of `ex_bindings`: the variable an extractor is bound to, and its columns. -/
structure ExBinding (Ty : Type) where
  v : TVar
  e1 : Texpr
  etype : Ty
  left : Nat
  right : Nat

structure ExResult (Ty : Type) where
  subjects : List (Subject Ty)
  rows : List Row
  bindings : List (ExBinding Ty)
  fresh : Nat

def patAnyNull : Pattern := patAny nullPos

variable {Ty : Type} (sig : Signature Ty)

/-- The entry of an extractor: the one with the same expression, or a new one. -/
def extractorEntry (fresh left right : Nat) (e1 : Texpr) (etype : Ty)
    (exBindings : List (ExBinding Ty)) : ExBinding Ty × Nat × List (ExBinding Ty) :=
  match exBindings.find? fun known => known.e1 = e1 with
  | some known => (known, fresh, exBindings)
  | none =>
    let entry := ⟨fresh, e1, etype, left, right⟩
    (entry, fresh + 1, entry :: exBindings)

/-- The fold of `compile_extractors`. A row with an extractor that was met before shares
its column; the column it would have had is there but stays a wildcard. -/
@[grind =] def extractRows (subject : Subject Ty) (num : Nat) (fresh left right : Nat)
    (exBindings : List (ExBinding Ty)) : List Row → Except MatchFailure (ExResult Ty)
  | [] => .ok ⟨[], [], exBindings, fresh⟩
  | row :: rows =>
    match row.patterns with
    | [] => .error (.error "die")
    | pat :: patterns =>
      match extractorOf subject.expr [] pat with
      | some (v, e1, pat1, bindings1) => do
        let etype := sig.etype (Function.update sig.vtype v subject.etype) e1
        let (entry, fresh, exBindings) :=
          extractorEntry fresh left right (Texpr.subst v subject.expr e1) etype exBindings
        let rest ← extractRows subject num fresh (left + 1) (right - 1) exBindings rows
        let patterns :=
          makeOffsetList (entry.left + 1) (entry.right - 1) pat1 patAnyNull ++ patterns
        .ok { rest with
          subjects := ⟨.tLocal entry.v, entry.etype⟩ :: rest.subjects
          rows := ⟨row.case, bindings1 ++ row.bindings, patterns⟩ :: rest.rows }
      | none => do
        let rest ← extractRows subject num fresh left right exBindings rows
        let patterns := makeOffsetList 0 num pat patAnyNull ++ patterns
        .ok { rest with rows := ⟨row.case, row.bindings, patterns⟩ :: rest.rows }

/-- `num_extractors`. -/
def numExtractors (subject : Texpr) (rows : List Row) : Nat :=
  rows.countP fun row => match row.patterns with
    | pat :: _ => (extractorOf subject [] pat).isSome
    | [] => false

/-! ## Sub-subjects -/

/-- `get_sub_subjects`: the arguments of an enum constructor, the fields or the elements. -/
def getSubSubjects (subject : Subject Ty) (con : Constructor) : List (Subject Ty) :=
  let types := (sig.args subject.etype con).getD []
  (List.range con.arity).map fun i => ⟨.tSub subject.expr con i, types.getD i subject.etype⟩

/-- The variables for the sub-subjects, and the sub-subjects read from them. -/
def genLocals (fresh : Nat) : List (Subject Ty) → List (TVar × Texpr) × List (Subject Ty)
  | [] => ([], [])
  | e :: subSubjects =>
    let (bindings, locals) := genLocals (fresh + 1) subSubjects
    ((fresh, e.expr) :: bindings, ⟨.tLocal fresh, e.etype⟩ :: locals)

/-- The loop of `compile_leaf` that binds the variables of a row of wildcards. -/
@[grind =] def leafBindings (bindings : List (TVar × Texpr)) :
    List Pattern → List (Subject Ty) → Except MatchFailure (List (TVar × Texpr))
  | [patAny _], _ => .ok bindings
  | patVariable v _ :: patterns, e :: el => leafBindings ((v, e.expr) :: bindings) patterns el
  | patBind v pat1 _ :: patterns, e :: el =>
    leafBindings ((v, e.expr) :: bindings) (pat1 :: patterns) (e :: el)
  | _ :: patterns, _ :: el => leafBindings bindings patterns el
  | [], [] => .ok bindings
  | [], _ :: _ => .error (.error "Invalid match: Not enough patterns")
  | _ :: _, [] => .error (.error "Invalid match: Too many patterns")
termination_by patterns => sizes patterns
decreasing_by all_goals (simp only [sizes, size]; have := size_pos; grind)

end Haxe.Source.Typing.Compile
