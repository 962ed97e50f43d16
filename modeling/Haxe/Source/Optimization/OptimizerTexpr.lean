import Haxe.Source.Core.TType

/-!
# Operators on constants

`optimize_binop` and `optimize_unop` of `optimization/optimizerTexpr.ml`. The types of expressions
are not represented: what the functions ask about them is `TypeTests`. Floats are whatever the
compiler computes with, and shifts by a count that `Int32` leaves unspecified are left open.
-/

namespace Haxe.Source.Optimization.OptimizerTexpr

open Core
open Syntax (Binop Unop UnopFlag)

/-- `is_int`, `is_float` and `is_numeric` of the type of an expression. -/
structure TypeTests where
  isInt : TExpr → Bool
  isFloat : TExpr → Bool

def TypeTests.isNumeric (types : TypeTests) (e : TExpr) : Bool := types.isFloat e || types.isInt e

/-- The floats of OCaml, and how they are written. -/
structure Floats (F : Type) where
  floatOfString : String → F
  toFloat : BitVec 32 → F
  floatRepres : F → String
  add : F → F → F
  sub : F → F → F
  mul : F → F → F
  div : F → F → F
  /-- `classify_float`: neither NaN nor infinite. -/
  finite : F → Bool
  /-- `=` -/
  equal : F → F → Bool
  /-- `compare` -/
  compare : F → F → Int

/-- `shift_left`, `shift_right` and `shift_right_logical` of `Int32`. -/
structure Shifts where
  left : BitVec 32 → Int → BitVec 32
  right : BitVec 32 → Int → BitVec 32
  rightLogical : BitVec 32 → Int → BitVec 32

/-- The documented part of `Int32`: other counts have an unspecified result. -/
structure Shifts.Documented (shifts : Shifts) : Prop where
  left : ∀ a n, n < 32 → shifts.left a (n : Nat) = a <<< n
  right : ∀ a n, n < 32 → shifts.right a (n : Nat) = a.sshiftRight n
  rightLogical : ∀ a n, n < 32 → shifts.rightLogical a (n : Nat) = a >>> n

section Constants

/-- `Int32.compare` -/
def compare32 (a b : BitVec 32) : Int :=
  if a.toInt < b.toInt then -1 else if a.toInt = b.toInt then 0 else 1

/-- A comparison operator, by what `compare` gives. -/
def holds : Binop → Option (Int → Bool)
  | .opEq => some (fun c => c == 0)
  | .opNotEq => some (fun c => c != 0)
  | .opGt => some (fun c => 0 < c)
  | .opGte => some (fun c => 0 ≤ c)
  | .opLt => some (fun c => c < 0)
  | .opLte => some (fun c => c ≤ 0)
  | _ => none

def tInt (i : BitVec 32) : TExpr := .tConst (.tInt i)

def tBool (b : Bool) : TExpr := .tConst (.tBool b)

def intOf : TExpr → Option (BitVec 32)
  | .tConst (.tInt i) => some i
  | _ => none

def floatOf : TExpr → Option String
  | .tConst (.tFloat s) => some s
  | _ => none

end Constants

section Binops

variable {F : Type} (floats : Floats F) (shifts : Shifts) (types : TypeTests) (e : TExpr)

/-- `check_float` -/
def checkFloat (f : F) : TExpr :=
  if floats.finite f && floats.equal (floats.floatOfString (floats.floatRepres f)) f then
    .tConst (.tFloat (floats.floatRepres f))
  else e

/-- `check_overflow`, by the result in 64 bits. -/
def checkOverflow (v : BitVec 64) : TExpr :=
  let iv := v.truncate 32
  if iv.signExtend 64 ≠ v then e else tInt iv

/-- Two integer constants. -/
def foldInts (op : Binop) (a b : BitVec 32) : TExpr :=
  match op with
  | .opAdd => checkOverflow e (a.signExtend 64 + b.signExtend 64)
  | .opSub => checkOverflow e (a.signExtend 64 - b.signExtend 64)
  | .opMult => checkOverflow e (a.signExtend 64 * b.signExtend 64)
  | .opDiv => checkFloat floats e (floats.div (floats.toFloat a) (floats.toFloat b))
  | .opAnd => tInt (a &&& b)
  | .opOr => tInt (a ||| b)
  | .opXor => tInt (a ^^^ b)
  | .opShl => tInt (shifts.left a b.toInt)
  | .opShr => tInt (shifts.right a b.toInt)
  | .opUShr => tInt (shifts.rightLogical a b.toInt)
  | op =>
    match holds op with
    | some t => tBool (t (compare32 a b))
    | none => e

/-- Two constants that are numbers, not both of them integers. -/
def foldFloats (op : Binop) (fa fb : F) : TExpr :=
  match op with
  | .opAdd => checkFloat floats e (floats.add fa fb)
  | .opDiv => checkFloat floats e (floats.div fa fb)
  | .opSub => checkFloat floats e (floats.sub fa fb)
  | .opMult => checkFloat floats e (floats.mul fa fb)
  | op =>
    match holds op with
    | some t => tBool (t (floats.compare fa fb))
    | none => e

/-- Two expressions of which it is known whether they are equal. -/
def foldEquality (op : Binop) (equal : Bool) : TExpr :=
  match op with
  | .opEq => tBool equal
  | .opNotEq => tBool !equal
  | _ => e

def foldBools (op : Binop) (a b : Bool) : TExpr :=
  match op with
  | .opEq => tBool (a == b)
  | .opNotEq => tBool (a != b)
  | .opBoolAnd => tBool (a && b)
  | .opBoolOr => tBool (a || b)
  | _ => e

/-- A call of an enum constructor as an operand, the other one being `other`. -/
def enumCall (op : Binop) (other : TExpr) (el : List TExpr) : Except String TExpr :=
  match op, other with
  | .opEq, .tConst .tNull => .ok (.tBlock (el ++ [tBool false]))
  | .opNotEq, .tConst .tNull => .ok (.tBlock (el ++ [tBool true]))
  | .opAssign, _ => .ok e
  | _, _ =>
    .error "You cannot directly compare enums with arguments. Use either `switch`, `match` or `Type.enumEq`"

/-- The last cases of `optimize_binop`, where the operands are not two constants that were looked
at before. -/
def foldOthers (op : Binop) (e1 e2 : TExpr) : Except String TExpr :=
  match e1, e2 with
  | .tConst (.tBool a), e2 =>
    match op with
    | .opBoolAnd => .ok (if a then e2 else tBool false)
    | .opBoolOr => .ok (if a then tBool true else e2)
    | _ => .ok e
  | e1, .tConst (.tBool a) =>
    match op with
    | .opBoolAnd => .ok (if a then e1 else e)
    | .opBoolOr => .ok (if a then e else e1)
    | _ => .ok e
  | .tField _ (.fEnum en1 f1), .tField _ (.fEnum en2 f2) =>
    .ok (if en1 = en2 then foldEquality e op (f1 == f2) else e)
  | e1, .tCall (.tField _ (.fEnum _ _)) el => enumCall e op e1 el
  | .tCall (.tField _ (.fEnum _ _)) el, e2 => enumCall e op e2 el
  | _, _ => .ok e

/-- The cases of `optimize_binop` by both operands. -/
def foldOperands (op : Binop) (e1 e2 : TExpr) : Except String TExpr :=
  match e1, e2 with
  | .tConst .tNull, .tConst .tNull => .ok (foldEquality e op true)
  | .tFunction _ _ _, .tConst .tNull => .ok (foldEquality e op false)
  | .tConst .tNull, .tFunction _ _ _ => .ok (foldEquality e op false)
  | .tConst (.tInt a), .tConst (.tInt b) => .ok (foldInts floats shifts e op a b)
  | .tConst (.tFloat a), .tConst (.tFloat b) =>
    .ok (foldFloats floats e op (floats.floatOfString a) (floats.floatOfString b))
  | .tConst (.tFloat a), .tConst (.tInt b) =>
    .ok (foldFloats floats e op (floats.floatOfString a) (floats.toFloat b))
  | .tConst (.tInt a), .tConst (.tFloat b) =>
    .ok (foldFloats floats e op (floats.toFloat a) (floats.floatOfString b))
  | .tConst (.tBool a), .tConst (.tBool b) => .ok (foldBools e op a b)
  | .tConst a, .tConst b =>
    if op = .opAdd ∧ a = .tString "" ∧ b matches .tString _ then .ok (.tConst b)
    else if op = .opAdd ∧ b = .tString "" ∧ a matches .tString _ then .ok (.tConst a)
    else if op = .opEq ∨ op = .opNotEq then .ok (foldEquality e op (a == b))
    else foldOthers e op (.tConst a) (.tConst b)
  | e1, e2 => foldOthers e op e1 e2

/-- `optimize_binop`; the message is that of the error it raises. -/
def optimizeBinop (op : Binop) (e1 e2 : TExpr) : Except String TExpr :=
  let isZero (s : String) := floats.equal (floats.floatOfString s) (floats.toFloat 0)
  let isOne (s : String) := floats.equal (floats.floatOfString s) (floats.toFloat 1)
  if intOf e1 = some 0 ∧ op = .opAdd ∧ types.isNumeric e2 then .ok e2
  else if intOf e1 = some 1 ∧ op = .opMult then .ok e2
  else if (floatOf e1).any isZero ∧ op = .opAdd ∧ types.isFloat e2 then .ok e2
  else if (floatOf e1).any isOne ∧ op = .opMult ∧ types.isFloat e2 then .ok e2
  else if intOf e2 = some 0 ∧ (op = .opAdd ∧ types.isNumeric e1 ∨
      op = .opSub ∨ op = .opShr ∨ op = .opShl) then .ok e1
  else if intOf e2 = some 1 ∧ op = .opMult then .ok e1
  else if (floatOf e2).any isZero ∧ (op = .opAdd ∨ op = .opSub) ∧ types.isFloat e1 then .ok e1
  else if (floatOf e2).any isOne ∧ op = .opMult ∧ types.isFloat e1 then .ok e1
  else foldOperands floats shifts e op e1 e2

end Binops

section Unops

variable {F : Type} (floats : Floats F) (types : TypeTests) (e : TExpr)

/-- The operator of the negated comparison. -/
def negated (isInt : Bool) : Binop → Option Binop
  | .opGt => if isInt then some .opLte else none
  | .opGte => if isInt then some .opLt else none
  | .opLt => if isInt then some .opGte else none
  | .opLte => if isInt then some .opGt else none
  | .opEq => some .opNotEq
  | .opNotEq => some .opEq
  | _ => none

def negateBinop (op : Binop) (e1 e2 : TExpr) : TExpr :=
  match negated (types.isInt e1 && types.isInt e2) op with
  | some op => .tBinop op e1 e2
  | none => e

/-- `optimize_unop` -/
def optimizeUnop (op : Unop) (esub : TExpr) : TExpr :=
  match op, esub with
  | .not, .tConst (.tBool f) => tBool !f
  | .not, .tParenthesis (.tConst (.tBool f)) => tBool !f
  | .not, .tBinop op e1 e2 => negateBinop types e op e1 e2
  | .not, .tParenthesis (.tBinop op e1 e2) => negateBinop types e op e1 e2
  | .neg, .tConst (.tInt i) => tInt (-i)
  | .negBits, .tConst (.tInt i) => tInt (~~~i)
  | .neg, .tConst (.tFloat f) =>
    let v := floats.sub (floats.toFloat 0) (floats.floatOfString f)
    if floats.equal (floats.floatOfString (floats.floatRepres v)) v then
      .tConst (.tFloat (floats.floatRepres v))
    else e
  | _, _ => e

end Unops

end Haxe.Source.Optimization.OptimizerTexpr
