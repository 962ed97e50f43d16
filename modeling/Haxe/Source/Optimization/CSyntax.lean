import Haxe.Source.Optimization.Optimizer

/-!
# C syntax

What the pass prepares expressions for: a text in which parentheses and braces stand only
for `TParenthesis` and `TBlock`, metadata and untyped casts leave no trace, and a negative
number starts with a minus sign. It is read with the precedence and associativity of
`standardPrecedence`, and an `else` goes to the nearest open `if`.
-/

namespace Haxe.Source.Optimization.Optimizer

open Core
open Syntax (Binop Unop UnopFlag)

inductive Tok where
  | lit (c : TConstant)
  | local (v : TVar)
  | op (o : Binop)
  | unop (o : Unop)
  | pOpen | pClose | brOpen | brClose | semicolon | comma
  | kIf | kElse | kWhile | kDo | kFor | kIn | kCast
  | type (m : ModuleType)

/-- A prefix operator right in front of a text: two minus signs are read as one sign. -/
def prefixed : Unop → List Tok → List Tok
  | .neg, .op .opSub :: ts => .unop .decrement :: ts
  | .neg, .unop .decrement :: ts => .unop .decrement :: .op .opSub :: ts
  | .neg, ts => .op .opSub :: ts
  | op, ts => .unop op :: ts

/-- A negative literal without its sign. -/
def absolute : TConstant → TConstant
  | .tInt i => .tInt (-i)
  | .tFloat flt => .tFloat (String.ofList flt.toList.tail)
  | c => c

mutual

/-- The text of an expression of the fragment. -/
def render : TExpr → List Tok
  | .tConst c => if isNegative c then [.op .opSub, .lit (absolute c)] else [.lit c]
  | .tLocal v => [.local v]
  | .tParenthesis e => .pOpen :: render e ++ [.pClose]
  | .tBlock el => .brOpen :: renderBlock el
  | .tBinop op e1 e2 => render e1 ++ .op op :: render e2
  | .tUnop op .prefixFlag e => prefixed op (render e)
  | .tUnop op .postfixFlag e => render e ++ [.unop op]
  | .tIf e e1 none => .kIf :: render e ++ render e1
  | .tIf e e1 (some e2) => .kIf :: render e ++ render e1 ++ .kElse :: render e2
  | .tWhile e1 e2 .normalWhile => .kWhile :: render e1 ++ render e2
  | .tWhile e1 e2 .doWhile => .kDo :: render e2 ++ .kWhile :: render e1
  | .tFor v e1 e2 => .kFor :: .pOpen :: .local v :: .kIn :: render e1 ++ .pClose :: render e2
  | .tCast e none | .tMeta _ e => render e
  | .tCast e (some m) => .kCast :: .pOpen :: render e ++ [.comma, .type m, .pClose]
  | _ => []

def renderBlock : List TExpr → List Tok
  | [] => [.brClose]
  | e :: el => render e ++ .semicolon :: renderBlock el

end

def precedence (op : Binop) : Nat := (standardPrecedence op).1

/-- The loosest operator in a right operand of `op`. -/
def rightLimit (op : Binop) : Nat :=
  if (standardPrecedence op).2 then precedence op - 1 else precedence op

/-- The loosest operator there is. -/
def loosest : Nat := 19

def isStep (o : Unop) : Bool := o = .increment || o = .decrement

/-- Postfix operators behind an expression. -/
def postfixes (e : TExpr) : List Tok → TExpr × List Tok
  | .unop o :: ts => if isStep o then postfixes (.tUnop o .postfixFlag e) ts else (e, .unop o :: ts)
  | ts => (e, ts)

mutual

/-- An operand with its unary operators. -/
def parseOperand : Nat → List Tok → Option (TExpr × List Tok)
  | 0, _ => none
  | _ + 1, .lit c :: ts => some (postfixes (.tConst c) ts)
  | _ + 1, .local v :: ts => some (postfixes (.tLocal v) ts)
  | n + 1, .pOpen :: ts => do
    let (e, ts) ← parseGroup n (.pOpen :: ts)
    return postfixes e ts
  | n + 1, .brOpen :: ts => do
    let (el, ts) ← parseBlock n ts
    return postfixes (.tBlock el) ts
  | n + 1, .kCast :: .pOpen :: ts => do
    let (e, ts) ← parseBinary n loosest ts
    match ts with
    | .comma :: .type m :: .pClose :: ts => return postfixes (.tCast e (some m)) ts
    | _ => none
  | n + 1, .op .opSub :: ts => do
    let (e, ts) ← parseOperand n ts
    return (.tUnop .neg .prefixFlag e, ts)
  | n + 1, .unop o :: ts => do
    let (e, ts) ← parseOperand n ts
    return (.tUnop o .prefixFlag e, ts)
  | n + 1, .kIf :: ts => do
    let (e, ts) ← parseGroup n ts
    let (e1, ts) ← parseBinary n loosest ts
    match ts with
    | .kElse :: ts =>
      let (e2, ts) ← parseBinary n loosest ts
      return (.tIf e e1 (some e2), ts)
    | ts => return (.tIf e e1 none, ts)
  | n + 1, .kWhile :: ts => do
    let (e1, ts) ← parseGroup n ts
    let (e2, ts) ← parseBinary n loosest ts
    return (.tWhile e1 e2 .normalWhile, ts)
  | n + 1, .kDo :: ts => do
    let (e2, ts) ← parseBinary n loosest ts
    match ts with
    | .kWhile :: ts =>
      let (e1, ts) ← parseGroup n ts
      return (.tWhile e1 e2 .doWhile, ts)
    | _ => none
  | n + 1, .kFor :: .pOpen :: .local v :: .kIn :: ts => do
    let (e1, ts) ← parseBinary n loosest ts
    match ts with
    | .pClose :: ts =>
      let (e2, ts) ← parseBinary n loosest ts
      return (.tFor v e1 e2, ts)
    | _ => none
  | _, _ => none

/-- An expression in parentheses. -/
def parseGroup : Nat → List Tok → Option (TExpr × List Tok)
  | n + 1, .pOpen :: ts => do
    let (e, ts) ← parseBinary n loosest ts
    match ts with
    | .pClose :: ts => return (.tParenthesis e, ts)
    | _ => none
  | _, _ => none

/-- An expression with binary operators up to the precedence `limit`. -/
def parseBinary : Nat → Nat → List Tok → Option (TExpr × List Tok)
  | 0, _, _ => none
  | n + 1, limit, ts => do
    let (e, ts) ← parseOperand n ts
    parseOperators n limit e ts

/-- The operators behind the left operand `e`. -/
def parseOperators : Nat → Nat → TExpr → List Tok → Option (TExpr × List Tok)
  | 0, _, _, _ => none
  | n + 1, limit, e, .op o :: ts =>
    if precedence o ≤ limit then do
      let (e2, ts) ← parseBinary n (rightLimit o) ts
      parseOperators n limit (.tBinop o e e2) ts
    else some (e, .op o :: ts)
  | _ + 1, _, e, ts => some (e, ts)

/-- The statements of a block. -/
def parseBlock : Nat → List Tok → Option (List TExpr × List Tok)
  | 0, _ => none
  | _ + 1, .brClose :: ts => some ([], ts)
  | n + 1, ts => do
    let (e, ts) ← parseBinary n loosest ts
    match ts with
    | .semicolon :: ts =>
      let (el, ts) ← parseBlock n ts
      return (e :: el, ts)
    | _ => none

end

/-- A whole text. -/
def parse (n : Nat) (ts : List Tok) : Option TExpr :=
  match parseBinary n loosest ts with
  | some (e, []) => some e
  | _ => none

end Haxe.Source.Optimization.Optimizer
