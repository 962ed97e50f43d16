import Haxe.Source.Core.Texpr

/-!
# Sanitizing an expression

`optimization/optimizer.ml`, from `standard_precedence` to `sanitize`. The types of
expressions are not represented: what the pass asks about them is `TypeTests`, and the
check that reports `null` as a basic type, which changes nothing, is left out.
-/

namespace Haxe.Source.Optimization.Optimizer

open Core
open Syntax (Binop Unop UnopFlag)

/-- The precedence of an operator, and whether it is left associative. -/
def standardPrecedence : Binop → Nat × Bool
  | .opIn => (4, false)
  | .opMult | .opDiv | .opMod => (5, true)
  | .opAdd | .opSub => (6, true)
  | .opShl | .opShr | .opUShr => (7, true)
  | .opLt | .opLte | .opGt | .opGte => (8, true)
  | .opEq | .opNotEq => (9, true)
  | .opAnd => (10, true)
  | .opXor => (11, true)
  | .opOr => (12, true)
  | .opInterval => (13, false)
  | .opBoolAnd => (14, true)
  | .opBoolOr => (15, true)
  | .opArrow => (16, true)
  | .opAssignOp .opAssign => (18, false)
  | .opAssign | .opAssignOp _ => (19, false)

def needParent : TExpr → Bool
  | .tConst _ | .tLocal _ | .tArray _ _ | .tField _ _ | .tEnumParameter _ _ _ | .tEnumIndex _
  | .tParenthesis _ | .tCall _ _ | .tNew _ _ | .tTypeExpr _ | .tObjectDecl _ | .tArrayDecl _
  | .tIdent _ => false
  | .tCast e none | .tMeta _ e => needParent e
  | _ => true

/-- `is_bool` of the type of an expression, without `Null`, and `is_void` of a type. -/
structure TypeTests where
  isBool : TExpr → Bool
  isVoid : HType → Bool

def parent : TExpr → TExpr
  | .tParenthesis e => .tParenthesis e
  | e => .tParenthesis e

def block : TExpr → TExpr
  | .tBlock el => .tBlock el
  | e => .tBlock [e]

/-- Complex expressions are printed as several. -/
def complex : TExpr → TExpr
  | .tVar v eo => block (.tVar v eo)
  | .tFor v e1 e2 => block (.tFor v e1 e2)
  | .tCall (.tIdent "__js__") el => block (.tCall (.tIdent "__js__") el)
  | e => e

/-- Tells if the printed expression ends with an `if` without `else`. -/
def hasIf : TExpr → Bool
  | .tIf _ _ none => true
  | .tWhile _ e .normalWhile => hasIf e
  | .tFor _ _ e => hasIf e
  | _ => false

def isIf : TExpr → Bool
  | .tIf _ _ _ => true
  | _ => false

def swap (op1 op2 : Binop) : Bool :=
  let (p1, left1) := standardPrecedence op1
  let (p2, _) := standardPrecedence op2
  left1 && p1 ≤ p2

/-- `String.get flt 0 = '-'`. -/
def isNegativeFloat (flt : String) : Bool := flt.toList.head? = some '-'

def isNegative : TConstant → Bool
  | .tInt i => i.toInt < 0
  | .tFloat flt => isNegativeFloat flt
  | _ => false

/-- Whether an operand of `op` gets parentheses. -/
def operandParent (op : Binop) (left : Bool) : TExpr → Bool
  | .tBinop op2 _ _ => if left then !swap op2 op else swap op op2
  | .tIf _ _ _ =>
    if left then !swap (.opAssignOp .opAssign) op else swap op (.opAssignOp .opAssign)
  | .tCast e none | .tMeta _ e => operandParent op left e
  | .tConst c =>
    !left && match op with
      | .opAdd | .opSub => isNegative c
      | _ => false
  | _ => false

/-- Whether the operand of the unary `op` gets parentheses. -/
def unopParent (op : Unop) : TExpr → Bool
  | .tConst c => op = .neg && isNegative c
  | .tBinop _ _ _ | .tIf _ _ _ | .tUnop _ _ _ => true
  | .tCast e none | .tMeta _ e => unopParent op e
  | _ => false

variable (tests : TypeTests)

/-- Drops a final `return` from the body of a `Void` function. -/
def dropReturn (exprs : List TExpr) : List TExpr :=
  match exprs.reverse with
  | .tReturn none :: rest => rest.reverse
  | _ => exprs

/-- The boolean whose double negation an expression is. -/
def doubleNot : TExpr → Option TExpr
  | .tUnop .not .prefixFlag (.tUnop .not .prefixFlag e1)
  | .tUnop .not .prefixFlag (.tParenthesis (.tUnop .not .prefixFlag e1)) =>
    if tests.isBool e1 then some e1 else none
  | _ => none

def sanitizeExpr (e : TExpr) : TExpr :=
  match e with
  | .tBinop op e1 e2 =>
    let e1 := if operandParent op true e1 then parent e1 else e1
    let e2 := if operandParent op false e2 then parent e2 else e2
    .tBinop op e1 e2
  | .tUnop op mode e1 =>
    match doubleNot tests e with
    | some e1 => e1
    | none => .tUnop op mode (if unopParent op e1 then parent e1 else e1)
  | .tIf e1 e2 eelse =>
    let e2 := if eelse.isSome && hasIf e2 || isIf e2 then block e2 else complex e2
    .tIf (parent e1) e2 (eelse.map complex)
  | .tWhile e1 e2 flag => .tWhile (parent e1) (complex e2) flag
  | .tFor v e1 e2 => .tFor v e1 (complex e2)
  | .tFunction tfArgs tfType tfExpr =>
    let tfExpr := match tfExpr with
      | .tBlock exprs => .tBlock (if tests.isVoid tfType then dropReturn exprs else exprs)
      | e => block e
    .tFunction tfArgs tfType tfExpr
  | .tCall e2 args => .tCall (if needParent e2 then parent e2 else e2) args
  | .tEnumParameter e2 ef i => .tEnumParameter (if needParent e2 then parent e2 else e2) ef i
  | .tEnumIndex e2 => .tEnumIndex (if needParent e2 then parent e2 else e2)
  | .tField e2 f => .tField (if needParent e2 then parent e2 else e2) f
  | .tArray e1 e2 => .tArray (if needParent e1 then parent e1 else e1) e2
  | .tTry e1 catches => .tTry (block e1) (catches.map fun c => (c.1, block c.2))
  | .tSwitch e1 cases default =>
    .tSwitch (parent e1) (cases.map fun c => (c.1, complex c.2)) (default.map complex)
  | e => e

/-- An expression without effect: dropped from a block, unless it is the last. -/
def isNoOp : TExpr → Bool
  | .tConst _ | .tBlock [] | .tObjectDecl [] => true
  | _ => false

/-- A pattern that is an enum constructor with arguments. -/
def isEnumCall : TExpr → Bool
  | .tCall (.tField _ (.fEnum _ _)) _ => true
  | _ => false

def reduceExpr (e : TExpr) : Except String TExpr :=
  match e with
  | .tSwitch _ cases _ =>
    if cases.any fun c => c.1.any isEnumCall then
      .error "Not-constant enum in switch cannot be matched"
    else .ok e
  | .tBlock l =>
    match l.reverse with
    | [] => .ok e
    | ec :: l =>
      match l.filter fun e => !isNoOp e with
      | [] => .ok ec
      | l => .ok (.tBlock (ec :: l).reverse)
  | .tParenthesis ec => .ok ec
  | .tTry e [] => .ok e
  | e => .ok e

def sanitize (e : TExpr) : Except String TExpr := do
  let e' ← e.mapExpr fun e' _ => sanitize e'
  return sanitizeExpr tests (← reduceExpr e')
termination_by sizeOf e
decreasing_by exact TExpr.sizeOf_children ‹_›

end Haxe.Source.Optimization.Optimizer
