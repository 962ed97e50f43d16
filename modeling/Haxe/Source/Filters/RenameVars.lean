import Mathlib.Logic.Function.Basic
import Haxe.Source.Context.Common
import Haxe.Source.Core.Texpr

/-!
# Renaming of local variables

`filters/renameVars.ml`. The first pass collects, for each declared variable, the variables
it must not share its name with; the second assigns the names. The open scopes are a stack,
innermost first: a child is added to its parent when it is left, which gives the same
lists. The mutable names are a table by variable id.
-/

namespace Haxe.Source.Filters.RenameVars

open Core Context

structure RenameContext where
  rcHoisting : Bool
  rcNoShadowing : Bool
  rcNoCatchVarShadowing : Bool
  rcSwitchCasesNoBlocks : Bool
  rcScope : VarScope
  rcReserved : List String

/-- The names `reserve_all_types` reserves for the types of the program: as top level
symbols, or as flat paths. -/
structure TypeNames where
  topLevel : List String
  flat : List String

/-- `init`, with the context that `run` makes of it; `current` is the top level symbol of the
current class. -/
def init (scoping : VarScopingConfig) (types : TypeNames) (current : String) : RenameContext :=
  let start : RenameContext := ⟨false, false, false, false, scoping.vsScope, ["this"]⟩
  scoping.vsFlags.foldl (fun ri flag =>
    match flag with
    | .varHoisting => { ri with rcHoisting := true }
    | .noShadowing => { ri with rcNoShadowing := true }
    | .noCatchVarShadowing => { ri with rcNoCatchVarShadowing := true }
    | .switchCasesNoBlocks => { ri with rcSwitchCasesNoBlocks := true }
    | .reserveNames names => { ri with rcReserved := names ++ ri.rcReserved }
    | .reserveAllTopLevelSymbols => { ri with rcReserved := types.topLevel ++ ri.rcReserved }
    | .reserveAllTypesFlat => { ri with rcReserved := types.flat ++ ri.rcReserved }
    | .reserveCurrentTopLevelSymbol => { ri with rcReserved := current :: ri.rcReserved }) start

/-- A set of variables, by id. -/
abbrev VarSet := List TVar

namespace VarSet

@[grind =] def has (vars : VarSet) (v : TVar) : Bool := vars.any fun o => o.vId = v.vId

def add (v : TVar) (vars : VarSet) : VarSet := if VarSet.has vars v then vars else v :: vars

end VarSet

/-- Declared variables, latest first, each with the variables it overlaps with. -/
abbrev OwnVars := List (TVar × VarSet)

/-- Scopes that were left: their variables, their foreign variables, the scopes inside and
the scopes before them. -/
inductive Scopes where
  | none
  | cons (ownVars : OwnVars) (foreignVars : VarSet) (children rest : Scopes)

/-- A scope that is open. -/
structure Scope where
  children : Scopes
  ownVars : OwnVars
  foreignVars : VarSet
  loopVars : VarSet
  loopCount : Nat

abbrev Stack := List Scope

def createScope : Scope := ⟨.none, [], [], [], 0⟩

variable (rc : RenameContext)

/-- Changes the innermost scope. -/
def onScope (f : Scope → Scope) : Stack → Stack
  | [] => []
  | scope :: parents => f scope :: parents

/-- `declare_var`. -/
def declareVar (v : TVar) : Stack → Stack :=
  onScope fun scope =>
    let overlaps :=
      if !rc.rcHoisting || scope.foreignVars.isEmpty then
        if scope.loopCount = 0 then [] else scope.loopVars
      else if scope.loopCount = 0 then scope.foreignVars
      else scope.foreignVars.foldl (fun overlaps o => VarSet.add o overlaps) scope.loopVars
    { scope with
      ownVars := (v, overlaps) :: scope.ownVars
      loopVars := if scope.loopCount > 0 then VarSet.add v scope.loopVars else scope.loopVars }

/-- The declarations made since `v` was declared overlap with it. The second component tells
whether the declaration of `v` is among them. -/
@[grind =] def addOverlaps (v : TVar) : OwnVars → OwnVars × Bool
  | [] => ([], false)
  | (d, overlaps) :: rest =>
    if d.vId = v.vId then ((d, overlaps) :: rest, true)
    else
      let (rest, found) := addOverlaps v rest
      ((d, VarSet.add v overlaps) :: rest, found)

/-- `use_var`; `none` is the failure to locate the declaration. -/
def useVar (v : TVar) : Stack → Option Stack
  | [] => none
  | scope :: parents => do
    let (ownVars, found) := addOverlaps v scope.ownVars
    let scope := { scope with ownVars := ownVars }
    let (scope, parents) ←
      if found then some (scope, parents)
      else
        let scope :=
          if rc.rcNoShadowing || rc.rcHoisting then
            { scope with foreignVars := VarSet.add v scope.foreignVars }
          else scope
        (useVar v parents).map (scope, ·)
    let scope :=
      if scope.loopCount > 0 then { scope with loopVars := VarSet.add v scope.loopVars } else scope
    return scope :: parents

/-- The parent of a scope that is left. -/
def leave (child parent : Scope) : Scope :=
  let children := Scopes.cons child.ownVars child.foreignVars child.children parent.children
  { parent with children := children }

/-- A traversal in a scope of its own. -/
@[grind =] def inScope (f : Stack → Option Stack) (stack : Stack) : Option Stack := do
  match ← f (createScope :: stack) with
  | child :: parent :: parents => return leave child parent :: parents
  | _ => none

/-- `collect_loop`. -/
def collectLoop (f : Stack → Option Stack) (stack : Stack) : Option Stack := do
  let stack ← f (onScope (fun scope => { scope with loopCount := scope.loopCount + 1 }) stack)
  return onScope (fun scope =>
    { scope with
      loopCount := scope.loopCount - 1
      loopVars := if scope.loopCount - 1 = 0 then [] else scope.loopVars }) stack

/-- The elements of a block, or the expression alone. -/
@[grind =] def blockElements : TExpr → List TExpr
  | .tBlock exprs => exprs
  | e => [e]

theorem sizeOf_blockElements {e e' : TExpr} (h : e' ∈ blockElements e) : sizeOf e' ≤ sizeOf e := by
  unfold blockElements at h
  split at h
  · have := List.sizeOf_lt_of_mem h
    simp only [TExpr.tBlock.sizeOf_spec]
    omega
  · obtain rfl := List.mem_singleton.mp h
    exact Nat.le_refl _

@[grind =] def isFunction : Option TExpr → Bool
  | some (.tFunction _ _ _) => true
  | _ => false

/-- A block opens a scope unless it stands directly in a block or a function. -/
def inBlockScope (inBlock : Bool) (f : Stack → Option Stack) : Stack → Option Stack :=
  if rc.rcScope = .blockScope ∧ ¬ inBlock then inScope f else f

/-- `collect_vars`. -/
@[grind =] def collectVars (inBlock : Bool) (e : TExpr) (stack : Stack) : Option Stack :=
  match e with
  | .tVar v eOpt => do
    if rc.rcHoisting || isFunction eOpt then
      let stack := declareVar rc v stack
      match eOpt with
      | none => return stack
      | some e => collectVars false e stack
    else
      let stack ← match eOpt with
        | none => some stack
        | some e => collectVars false e stack
      return declareVar rc v stack
  | .tLocal v => useVar rc v stack
  | .tFunction tfArgs _ tfExpr =>
    inScope (fun stack => do
      let stack := tfArgs.foldl (fun stack arg => declareVar rc arg.1 stack) stack
      let stack ← tfArgs.foldlM (fun stack arg => useVar rc arg.1 stack) stack
      (blockElements tfExpr).attach.foldlM (fun stack e => collectVars true e.1 stack) stack) stack
  | .tTry tryExpr catches => do
    let stack ← collectVars false tryExpr stack
    catches.attach.foldlM (fun stack c => do
      let stack ← inBlockScope rc false (fun stack =>
        (blockElements c.1.2).attach.foldlM (fun stack e => collectVars true e.1 stack)
          (declareVar rc c.1.1 stack)) stack
      if rc.rcNoCatchVarShadowing then useVar rc c.1.1 stack else return stack) stack
  | .tSwitch target cases default => do
    if rc.rcSwitchCasesNoBlocks then
      let stack ← collectVars false target stack
      let stack ← cases.attach.foldlM (fun stack c => do
        let stack ← c.1.1.attach.foldlM (fun stack e => collectVars false e.1 stack) stack
        (blockElements c.1.2).attach.foldlM (fun stack e => collectVars true e.1 stack) stack) stack
      match default with
      | none => return stack
      | some e =>
        (blockElements e).attach.foldlM (fun stack e => collectVars true e.1 stack) stack
    else
      let stack ← collectVars false target stack
      let stack ← cases.attach.foldlM (fun stack c => do
        let stack ← c.1.1.attach.foldlM (fun stack e => collectVars false e.1 stack) stack
        collectVars false c.1.2 stack) stack
      match default with
      | none => return stack
      | some e => collectVars false e stack
  | .tBlock exprs =>
    inBlockScope rc inBlock (fun stack =>
      exprs.attach.foldlM (fun stack e => collectVars true e.1 stack) stack) stack
  | .tWhile condition body flag =>
    collectLoop (fun stack =>
      match flag with
      | .normalWhile => collectVars false condition stack >>= collectVars false body
      | .doWhile => collectVars false body stack >>= collectVars false condition) stack
  | .tFor v iterator body =>
    collectLoop (fun stack => do
      let stack := if rc.rcHoisting then declareVar rc v stack else stack
      let stack ← collectVars false iterator stack
      let stack := if rc.rcHoisting then stack else declareVar rc v stack
      collectVars false body stack) stack
  | e => e.children.attach.foldlM (fun stack e => collectVars false e.1 stack) stack
termination_by sizeOf e
decreasing_by
  all_goals first
    | exact TExpr.sizeOf_children e.2
    | exact TExpr.sizeOf_pattern c.2 e.2
    | exact TExpr.sizeOf_caseBody c.2
    | exact Nat.lt_of_le_of_lt (sizeOf_blockElements e.2) (TExpr.sizeOf_caseBody c.2)
    | exact Nat.lt_of_le_of_lt (sizeOf_blockElements e.2) (TExpr.sizeOf_catch c.2)
    | (refine TExpr.sizeOf_children ?_
       simp [TExpr.children]
       done)
    | (refine Nat.lt_of_le_of_lt (sizeOf_blockElements e.2) (TExpr.sizeOf_children ?_)
       simp [TExpr.children])

/-- The current `v_name` of the variables that were renamed, by id. -/
abbrev Names := Nat → Option String

def vName (names : Names) (v : TVar) : String := (names v.vId).getD v.vName

/-- `is_gen_local`: the name starts with the escape character. -/
def isGenLocal (name : String) : Bool := name.toList.head? = some (Char.ofNat 96)

/-- `Str.replace_first trailing_numbers ""`, for a name of one line. -/
def chopTrailingNumbers (name : String) : String :=
  String.ofList (name.toList.reverse.dropWhile Char.isDigit).reverse

/-- The name of a generated local without its escape character and number. -/
def genLocalName (name : String) : String :=
  "_g" ++ chopTrailingNumbers (String.ofList name.toList.tail)

/-- The names that are tried: the name itself, then the name with a count. -/
def candidate (name : String) (count : Nat) : String :=
  if count = 0 then name else name ++ toString count

/-- The loop that counts up until the name is free. -/
def freeName (taken : List String) (name : String) : Nat → Nat → String
  | 0, count => candidate name count
  | fuel + 1, count =>
    if candidate name count ∈ taken then freeName taken name fuel (count + 1)
    else candidate name count

/-- `maybe_rename_var`, with the names reserved so far. -/
def maybeRenameVar (state : List String × Names) (own : TVar × VarSet) : List String × Names :=
  let (reserved, names) := state
  let (v, overlaps) := own
  let names :=
    if isGenLocal (vName names v) then
      Function.update names v.vId (some (genLocalName (vName names v)))
    else names
  let taken := reserved ++ overlaps.map (vName names)
  let name := freeName taken (vName names v) taken.length 0
  let names := Function.update names v.vId (some name)
  let reserved :=
    if rc.rcNoShadowing || (v.vCaptured && rc.rcHoisting) then name :: reserved else reserved
  (reserved, names)

/-- `rename_vars` of a list of scopes. -/
def renameVars : Scopes → Names → Names
  | .none, names => names
  | .cons ownVars foreignVars children rest, names =>
    let reserved :=
      if rc.rcHoisting || rc.rcNoShadowing then
        foreignVars.map (vName names) ++ rc.rcReserved
      else rc.rcReserved
    let (_, names) := ownVars.reverse.foldl (maybeRenameVar rc) (reserved, names)
    renameVars rest (renameVars children names)

/-- `run`: the names after the pass, or the failure. -/
@[grind =] def run (e : TExpr) : Option Names := do
  match ← collectVars rc false e [createScope] with
  | [scope] =>
    return renameVars rc (.cons scope.ownVars scope.foreignVars scope.children .none) fun _ => none
  | _ => none

end Haxe.Source.Filters.RenameVars
