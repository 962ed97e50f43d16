import Haxe.Source.Typing.Pattern

/-!
# Tokens and expressions of the parser

The part of `ast.ml` that the token source and the expression grammar read. An
expression carries its position as the last argument of its constructor. The
expressions that no modelled function looks into are `eOther`, named by a number;
type hints are named by a number too.
-/

namespace Haxe.Source.Syntax

open Typing (Pos punion nullPos)

inductive Keyword where
  | kFunction | kClass | kVar | kIf | kElse | kWhile | kDo | kFor | kBreak | kContinue
  | kReturn | kExtends | kImplements | kImport | kSwitch | kCase | kDefault | kStatic
  | kPublic | kPrivate | kTry | kCatch | kNew | kThis | kThrow | kExtern | kEnum | kIn
  | kInterface | kUntyped | kCast | kOverride | kTypedef | kDynamic | kPackage | kInline
  | kUsing | kNull | kTrue | kFalse | kAbstract | kMacro | kFinal | kOperator | kOverload
  deriving DecidableEq, Repr

def sKeyword : Keyword → String
  | .kFunction => "function" | .kClass => "class" | .kStatic => "static" | .kVar => "var"
  | .kIf => "if" | .kElse => "else" | .kWhile => "while" | .kDo => "do" | .kFor => "for"
  | .kBreak => "break" | .kReturn => "return" | .kContinue => "continue"
  | .kExtends => "extends" | .kImplements => "implements" | .kImport => "import"
  | .kSwitch => "switch" | .kCase => "case" | .kDefault => "default"
  | .kPrivate => "private" | .kPublic => "public" | .kTry => "try" | .kCatch => "catch"
  | .kNew => "new" | .kThis => "this" | .kThrow => "throw" | .kExtern => "extern"
  | .kEnum => "enum" | .kIn => "in" | .kInterface => "interface" | .kUntyped => "untyped"
  | .kCast => "cast" | .kOverride => "override" | .kTypedef => "typedef"
  | .kDynamic => "dynamic" | .kPackage => "package" | .kInline => "inline"
  | .kUsing => "using" | .kNull => "null" | .kTrue => "true" | .kFalse => "false"
  | .kAbstract => "abstract" | .kMacro => "macro" | .kFinal => "final"
  | .kOperator => "operator" | .kOverload => "overload"

inductive Binop where
  | opAdd | opMult | opDiv | opSub | opAssign | opEq | opNotEq | opGt | opGte | opLt | opLte
  | opAnd | opOr | opXor | opBoolAnd | opBoolOr | opShl | opShr | opUShr | opMod
  | opAssignOp (op : Binop)
  | opInterval | opArrow | opIn
  deriving DecidableEq, Repr

inductive Unop where
  | increment | decrement | not | neg | negBits | spread
  deriving DecidableEq, Repr

inductive UnopFlag where
  | prefixFlag | postfixFlag
  deriving DecidableEq, Repr

inductive StringLiteralKind where
  | sDoubleQuotes | sSingleQuotes
  deriving DecidableEq, Repr

inductive Constant where
  | int (s : String)
  | float (s : String)
  | string (s : String) (qs : StringLiteralKind)
  | ident (s : String)
  | regexp (r opt : String)
  deriving DecidableEq, Repr

inductive Token where
  | eof
  | const (c : Constant)
  | kwd (k : Keyword)
  | comment (s : String)
  | commentLine (s : String)
  | binop (op : Binop)
  | unop (op : Unop)
  | semicolon | comma | brOpen | brClose | bkOpen | bkClose | pOpen | pClose | dot | dblDot
  | arrow
  | intInterval (s : String)
  | sharp (s : String)
  | question | at_
  | dollar (s : String)
  | spread
  deriving DecidableEq, Repr

/-- `token * pos`. -/
abbrev PlacedToken := Token × Pos

abbrev TypeHint := Nat

inductive Expr where
  | eConst (c : Constant) (p : Pos)
  | eArray (e1 e2 : Expr) (p : Pos)
  | eBinop (op : Binop) (e1 e2 : Expr) (p : Pos)
  | eField (e : Expr) (name : String) (p : Pos)
  | eParenthesis (e : Expr) (p : Pos)
  | eCall (e : Expr) (el : List Expr) (p : Pos)
  | eUnop (op : Unop) (flag : UnopFlag) (e : Expr) (p : Pos)
  | eIs (e : Expr) (t : TypeHint) (p : Pos)
  | eTernary (e1 e2 e3 : Expr) (p : Pos)
  | eOther (id : Nat) (p : Pos)
  deriving Repr

/-- The position of an expression, `snd e`. -/
def Expr.pos : Expr → Pos
  | .eConst _ p | .eArray _ _ p | .eBinop _ _ _ p | .eField _ _ p | .eParenthesis _ p
  | .eCall _ _ p | .eUnop _ _ _ p | .eIs _ _ p | .eTernary _ _ _ p | .eOther _ p => p

/-- `is_postfix`, which does not look at the operand. -/
def isPostfix : Unop → Bool
  | .increment | .decrement | .not => true
  | .neg | .negBits | .spread => false

/-- `string_list_of_expr_path_raise`; `none` is the exception `Exit`. -/
def stringListOfExprPath : Expr → Option (List String)
  | .eConst (.ident i) _ => some [i]
  | .eField e f _ => (stringListOfExprPath e).map (f :: ·)
  | _ => none

end Haxe.Source.Syntax
