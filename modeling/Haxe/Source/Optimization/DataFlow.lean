import Haxe.Source.Core.TType
import Haxe.Source.Optimization.InferImmediateDominators

/-!
# The data flow solver of the analyzer

`DataFlow` of `analyzer.ml`, over any lattice. Expressions are those of SSA form that the
transfer functions tell apart; the type of an expression is an identity where it is looked at.
An exception ends the run without a state.
-/

namespace Haxe.Source.Optimization.DataFlow

open Core (TConstant)
open Syntax (Binop Unop UnopFlag)

/-- A variable of SSA form, with what is asked about it. -/
structure SsaVar where
  vId : Nat
  isDynamic : Bool
  vCaptured : Bool
  deriving DecidableEq

inductive Texpr where
  | tConst (c : TConstant) (etype : Nat)
  | tLocal (v : SsaVar)
  | tTypeExpr (mt etype : Nat)
  | tBinop (op : Binop) (e1 e2 : Texpr)
  | tUnop (op : Unop) (flag : UnopFlag) (e : Texpr)
  | tVar (v : SsaVar) (eo : Option Texpr)
  | tFieldEnum (efIndex : Nat)
  | tFieldStatic (c cf : String)
  | tCall (e : Texpr) (el : List Texpr)
  /-- The call of the string constant `phi`. -/
  | tPhi (el : List Texpr)
  | tEnumParameter (e : Texpr) (i : Nat)
  | tEnumIndex (e : Texpr)
  | tParenthesis (e : Texpr)
  | tMeta (e : Texpr)
  | tCast (e : Texpr)
  /-- The expression by which the platform reads the index of an enum value. -/
  | platformIndex (e : Texpr)
  | other

inductive TexprLookup where
  | luPhi (i : Nat)
  | luEl (i : Nat)
  | luTerm
  deriving DecidableEq

inductive TerminatorKind where
  | termNone
  | termCondBranch (e : Texpr)
  | termReturn
  | termReturnValue (e : Texpr)
  | termBreak
  | termContinue
  | termThrow (e : Texpr)

structure Block where
  bbEl : List Texpr
  bbPhi : List Texpr
  bbTerminator : TerminatorKind

/-- A control flow graph with its expressions, and for each variable the expressions that it
influences. -/
structure Graph extends Cfg Texpr where
  block : Nat → Block
  ssaEdges : Nat → List (Nat × TexprLookup)

namespace Graph

variable (g : Graph)

def getTexpr (bb : Nat) : TexprLookup → Option Texpr
  | .luPhi i => (g.block bb).bbPhi[i]?
  | .luEl i => (g.block bb).bbEl[i]?
  | .luTerm =>
    match (g.block bb).bbTerminator with
    | .termCondBranch e | .termReturnValue e | .termThrow e => some e
    | _ => none

end Graph

/-- `DataFlowApi`, with the cells handed to the transfer function. The comparisons with the
greatest and the least element are of identities. -/
structure DataFlowApi (T : Type) where
  transfer : (Nat → T) → Texpr → T
  equals : T → T → Bool
  top : T
  bottom : T
  isTop : T → Bool
  isBottom : T → Bool
  conditional : Bool

structure State (T : Type) where
  flagged : List Nat
  cells : List (Nat × T)
  ssaWorkList : List (Nat × TexprLookup)
  cfgWorkList : List (CfgEdge Texpr)

section Solver

variable {T : Type} (M : DataFlowApi T) (g : Graph)

def getCell (cells : List (Nat × T)) (i : Nat) : T :=
  match cells.find? fun cell => cell.1 = i with
  | some cell => cell.2
  | none => M.top

/-- `Hashtbl.replace`. -/
def setCell : List (Nat × T) → Nat → T → List (Nat × T)
  | [], i, ct => [(i, ct)]
  | cell :: cells, i, ct =>
    if cell.1 = i then (i, ct) :: cells else cell :: setCell cells i ct

def transferIn (s : State T) (e : Texpr) : T := M.transfer (getCell M s.cells) e

def hasFlag (s : State T) (edge : CfgEdge Texpr) : Bool :=
  s.flagged.any fun flagged => flagged = edge.cfgId

/-- The operands that come in over executable edges agree, or it is the least element. -/
def visitPhi (s : State T) (bb : Nat) (el : List Texpr) : Option T :=
  if el.length = (g.bbIncoming bb).length then
    let el := (((el.zip (g.bbIncoming bb)).filter fun e => hasFlag s e.2).map Prod.fst).reverse
    match el.map (transferIn M s) with
    | e1 :: el => some (if el.all (M.equals e1) then e1 else M.bottom)
    | [] => some M.bottom
  else none

def setLatticeCell (s : State T) (v : SsaVar) (e : T) : State T :=
  { s with
    cells := setCell s.cells v.vId e
    ssaWorkList :=
      if M.equals e (getCell M s.cells v.vId) then s.ssaWorkList
      else (g.ssaEdges v.vId).reverse ++ s.ssaWorkList }

def visitAssignment (s : State T) (bb : Nat) (v : SsaVar) : Texpr → Option (State T)
  | .tPhi el => (visitPhi M g s bb el).map (setLatticeCell M g s v)
  | e =>
    if (g.bbIncoming bb).any (hasFlag s) then some (setLatticeCell M g s v (transferIn M s e))
    else some s

/-- The variable that an expression assigns, and its value. -/
def assigned : Texpr → Option (SsaVar × Texpr)
  | .tBinop .opAssign (.tLocal v) e2 => some (v, e2)
  | .tVar v (some e2) => some (v, e2)
  | _ => none

/-- The edges of a branch on a known value: those whose value is that one, or the one for all
others, and those that are no branches. -/
def branchEdges (s : State T) (e1 : T) (outgoing : List (CfgEdge Texpr)) : List (CfgEdge Texpr) :=
  let yes := (outgoing.filter fun edge =>
    match edge.cfgKind with
    | .cfgCondBranch e => M.equals (transferIn M s e) e1
    | _ => false).reverse
  let maybe := (outgoing.filter fun edge =>
    match edge.cfgKind with
    | .cfgCondElse => true
    | _ => false).reverse
  let also := (outgoing.filter fun edge =>
    match edge.cfgKind with
    | .cfgGoto | .cfgFunction | .cfgMaybeThrow => true
    | _ => false).reverse
  match yes, maybe with
  | [], [] => outgoing
  | [], maybe => maybe ++ also
  | yes, _ => yes ++ also

def addCfgEdges (s : State T) (edges : List (CfgEdge Texpr)) : State T :=
  { s with cfgWorkList := edges.reverse ++ s.cfgWorkList }

/-- The result says whether the outgoing edges have been taken care of. -/
def visitExpression (s : State T) (bb : Nat) (condBranch : Bool) (e : Texpr) :
    Option (State T × Bool) :=
  match assigned e with
  | some (v, e2) => (visitAssignment M g s bb v e2).map fun s => (s, false)
  | none =>
    if M.conditional && condBranch then
      let e1 := transferIn M s e
      let edges := if M.isBottom e1 || M.isTop e1 then g.bbOutgoing bb
        else branchEdges M s e1 (g.bbOutgoing bb)
      some (addCfgEdges s edges, true)
    else some (s, false)

/-- Another visit, after which the edges are taken care of if they were so before it. -/
def visitNext (bb : Nat) (condBranch : Bool) (visited : State T × Bool) (e : Texpr) :
    Option (State T × Bool) :=
  (visitExpression M g visited.1 bb condBranch e).map fun next => (next.1, next.2 || visited.2)

def visitExpressions (s : State T) (bb : Nat) : Option (State T) := do
  let visited ← (g.block bb).bbEl.foldlM (visitNext M g bb false) (s, false)
  let visited ← match (g.block bb).bbTerminator with
    | .termCondBranch e1 => visitNext M g bb true visited e1
    | .termReturnValue e1 | .termThrow e1 => visitExpression M g visited.1 bb false e1
    | _ => some visited
  some (if visited.2 then visited.1 else addCfgEdges visited.1 (g.bbOutgoing bb))

def visitPhiAssignment (bb : Nat) (s : State T) : Texpr → Option (State T)
  | .tBinop .opAssign (.tLocal v) (.tPhi el) =>
    (visitPhi M g s bb el).map (setLatticeCell M g s v)
  | _ => none

def visitPhis (s : State T) (bb : Nat) : Option (State T) :=
  (g.block bb).bbPhi.foldlM (visitPhiAssignment M g bb) s

/-- The expressions of a block are visited over its first executable edge. -/
def visitOnce (s : State T) (bb : Nat) : Option (State T) :=
  let i := (g.bbIncoming bb).countP (hasFlag s)
  if i = 1 ∨ bb = g.gRoot then visitExpressions M g s bb else some s

/-- The only edge out of a block is executable. -/
def leaveBlock (s : State T) (bb : Nat) : State T :=
  match g.bbOutgoing bb with
  | [edge] => addCfgEdges s [edge]
  | _ => s

/-- One turn of the loop. -/
def step (s : State T) : Option (State T) :=
  match s.cfgWorkList, s.ssaWorkList with
  | edge :: edges, _ =>
    let s := { s with cfgWorkList := edges }
    if hasFlag s edge then some s
    else do
      let s := { s with flagged := edge.cfgId :: s.flagged }
      let s ← visitPhis M g s edge.cfgTo
      let s ← visitOnce M g s edge.cfgTo
      some (leaveBlock g s edge.cfgTo)
  | [], (bb, luk) :: edges => do
    let s := { s with ssaWorkList := edges }
    let e ← g.getTexpr bb luk
    (visitExpression M g s bb (luk = .luTerm) e).map Prod.fst
  | [], [] => some s

def start : State T := ⟨[], [], [], g.bbOutgoing g.gRoot⟩

/-- Both work lists are empty. -/
def Finished (s : State T) : Prop := s.cfgWorkList = [] ∧ s.ssaWorkList = []

end Solver

end Haxe.Source.Optimization.DataFlow
