import Haxe.Source.Optimization.DataFlow

/-!
# The lattices of the analyzer

`ConstPropagation` and `CopyPropagation`. What the optimizer and the inliner make of constant
operands, once it is evaluated again, are parameters, and so is whether a type is an enum.
-/

namespace Haxe.Source.Optimization.DataFlow

open Core (TConstant)
open Syntax (Binop Unop UnopFlag)

namespace ConstPropagation

inductive Lattice where
  | top
  | bottom
  | null (t : Nat)
  | const (c : TConstant)
  | enumValue (i : Nat) (tl : List Lattice)
  | moduleType (mt t : Nat)

mutual

def equals : Lattice → Lattice → Bool
  | .top, .top | .bottom, .bottom => true
  | .const ct1, .const ct2 => ct1 = ct2
  | .null t1, .null t2 => t1 = t2
  | .enumValue i1 tl1, .enumValue i2 tl2 => i1 = i2 && equalsAll tl1 tl2
  | .moduleType mt1 _, .moduleType mt2 _ => mt1 = mt2
  | _, _ => false

/-- `safe_for_all2`. -/
def equalsAll : List Lattice → List Lattice → Bool
  | [], [] => true
  | l1 :: tl1, l2 :: tl2 => equals l1 l2 && equalsAll tl1 tl2
  | _, _ => false

end

/-- What the transfer function takes from elsewhere. `none` is an `Exit`. -/
structure Context where
  ofEnum : Texpr → Bool
  onEval : Bool
  tDynamic : Nat
  optimizeBinop : Binop → Texpr → Texpr → Option Lattice
  optimizeUnop : Unop → UnopFlag → Texpr → Option Lattice
  apiInline : String → String → List Texpr → Option Lattice

variable (ctx : Context) (cell : Nat → Lattice)

def wrap : Lattice → Option Texpr
  | .const ct => some (.tConst ct ctx.tDynamic)
  | .null t => some (.tConst .tNull t)
  | _ => none

def indexOf : Option Lattice → Option Lattice
  | some (.enumValue i _) => some (.const (.tInt (BitVec.ofNat 32 i)))
  | _ => none

mutual

/-- `eval`. Every operand is evaluated before it is asked whether all of them have a value. -/
def eval : Texpr → Option Lattice
  | .tConst .tSuper _ | .tConst .tThis _ => some .bottom
  | .tConst .tNull etype => some (.null etype)
  | .tConst ct _ => some (.const ct)
  | .tTypeExpr mt etype => some (.moduleType mt etype)
  | .tLocal v => some (if v.isDynamic || v.vCaptured then .bottom else cell v.vId)
  | .tBinop .opAssign _ e2 => eval e2
  | .tBinop op e1 e2 =>
    (eval e1).bind fun cl1 => (eval e2).bind fun cl2 =>
      (wrap ctx cl1).bind fun e1 => (wrap ctx cl2).bind fun e2 => ctx.optimizeBinop op e1 e2
  | .tUnop op flag e1 =>
    (eval e1).bind fun cl1 => (wrap ctx cl1).bind fun e1 => ctx.optimizeUnop op flag e1
  | .tFieldEnum i => some (.enumValue i [])
  | .tCall (.tFieldEnum i) el => some (.enumValue i ((evalAll el).map fun cl => cl.getD .bottom))
  | .tEnumParameter e1 i =>
    match eval e1 with
    | some (.enumValue _ el) => el[i]?
    | _ => none
  | .tEnumIndex e1 => indexOf (eval e1)
  | .tCall (.tFieldStatic c cf) el =>
    if ctx.onEval ∧ c = "Type" ∧ cf = "enumIndex" ∧ el.length = 1 ∧ el.all ctx.ofEnum ∧
        (evalAll el).all fun cl => (indexOf cl).isSome then
      (evalAll el).head?.bind indexOf
    else
      (evalAll el).mapM id |>.bind fun cll => (cll.mapM (wrap ctx)).bind (ctx.apiInline c cf)
  | .tParenthesis e1 | .tMeta e1 | .tCast e1 => eval e1
  | .platformIndex e1 => if ctx.ofEnum e1 then indexOf (eval e1) else none
  | _ => none

def evalAll : List Texpr → List (Option Lattice)
  | [] => []
  | e :: el => eval e :: evalAll el

end

def transfer (cell : Nat → Lattice) (e : Texpr) : Lattice := (eval ctx cell e).getD .bottom

def isTop : Lattice → Bool
  | .top => true
  | _ => false

def isBottom : Lattice → Bool
  | .bottom => true
  | _ => false

def api : DataFlowApi Lattice where
  transfer := transfer ctx
  equals := equals
  top := .top
  bottom := .bottom
  isTop := isTop
  isBottom := isBottom
  conditional := true

end ConstPropagation

namespace CopyPropagation

inductive Lattice where
  | top
  | bottom
  | local_ (vId : Nat)
  | this (t : Nat)
  deriving DecidableEq

def equals (t1 t2 : Lattice) : Bool := t1 = t2

def transfer : Texpr → Lattice
  | .tLocal v => if v.vCaptured then .bottom else .local_ v.vId
  | .tConst .tThis etype => .this etype
  | .tParenthesis e1 | .tMeta e1 | .tCast e1 => transfer e1
  | _ => .bottom

def api : DataFlowApi Lattice where
  transfer _ := transfer
  equals := equals
  top := .top
  bottom := .bottom
  isTop := fun l => l = .top
  isBottom := fun l => l = .bottom
  conditional := false

end CopyPropagation

end Haxe.Source.Optimization.DataFlow
