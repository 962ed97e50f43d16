import Haxe.Source.Syntax.Ast

/-!
# Operators in the parser

`precedence`, `swap`, `make_binop` and `make_unop` of `parser.ml`, and the productions
of `expr` and `expr_next'` in `grammar.mly` that read operators and their operands,
outside display mode. `none` is a parse error (or no fuel). The productions that start
with other tokens are left out; `parse_complex_type` is a parameter.
-/

namespace Haxe.Source.Syntax

open Typing (Pos punion)

/-- The level of an operator and whether it is left-associative. -/
def precedence : Binop → Nat × Bool
  | .opIn => (0, false)
  | .opMod => (1, true)
  | .opMult | .opDiv => (2, true)
  | .opAdd | .opSub => (3, true)
  | .opShl | .opShr | .opUShr => (4, true)
  | .opOr | .opAnd | .opXor => (5, true)
  | .opEq | .opNotEq | .opGt | .opLt | .opGte | .opLte => (6, true)
  | .opInterval => (7, true)
  | .opBoolAnd => (8, true)
  | .opBoolOr => (9, true)
  | .opArrow => (10, false)
  | .opAssign | .opAssignOp _ => (11, false)

def isNotAssign : Binop → Bool
  | .opAssign | .opAssignOp _ => false
  | _ => true

def swap (op1 op2 : Binop) : Bool :=
  (precedence op1).2 && (precedence op1).1 ≤ (precedence op2).1

@[grind =] def makeBinop (op : Binop) (e : Expr) : Expr → Expr
  | .eBinop op' l r p2 =>
    if swap op op' then
      let l := makeBinop op e l
      .eBinop op' l r (punion l.pos r.pos)
    else
      .eBinop op e (.eBinop op' l r p2) (punion e.pos p2)
  | .eTernary e1 e2 e3 p2 =>
    if isNotAssign op then
      let e := makeBinop op e e1
      .eTernary e e2 e3 (punion e.pos e3.pos)
    else
      .eBinop op e (.eTernary e1 e2 e3 p2) (punion e.pos p2)
  | e2 => .eBinop op e e2 (punion e.pos e2.pos)

/-- `neg` of `make_unop`: the sign of a literal's text. -/
def negText (s : String) : String :=
  match s.toList with
  | '-' :: digits => String.ofList digits
  | _ => "-" ++ s

@[grind =] def makeUnop (op : Unop) (p1 : Pos) : Expr → Expr
  | .eBinop bop e e2 p2 => .eBinop bop (makeUnop op p1 e) e2 (punion p1 p2)
  | .eTernary e1 e2 e3 p2 => .eTernary (makeUnop op p1 e1) e2 e3 (punion p1 p2)
  | .eIs e t p2 => .eIs (makeUnop op p1 e) t (punion p1 p2)
  | .eConst c p2 =>
    match op, c with
    | .neg, .int i => .eConst (.int (negText i)) (punion p1 p2)
    | .neg, .float j => .eConst (.float (negText j)) (punion p1 p2)
    | op, c => .eUnop op .prefixFlag (.eConst c p2) (punion p1 p2)
  | e => .eUnop op .prefixFlag e (punion p1 e.pos)

/-- The operator after a first `>`: further `>` and `=` count when they touch. -/
@[grind =] def compoundGt (p1 : Pos) : List PlacedToken → Binop × List PlacedToken
  | (.binop .opGt, p2) :: s =>
    if p1.pmax = p2.pmin then
      match s with
      | (.binop .opGt, p3) :: s' =>
        if p2.pmax = p3.pmin then
          match s' with
          | (.binop .opAssign, p4) :: s'' =>
            if p3.pmax = p4.pmin then (.opAssignOp .opUShr, s'') else (.opUShr, s')
          | _ => (.opUShr, s')
        else (.opShr, s)
      | (.binop .opAssign, p3) :: s' =>
        if p2.pmax = p3.pmin then (.opAssignOp .opShr, s') else (.opShr, s)
      | _ => (.opShr, s)
    else (.opGt, (.binop .opGt, p2) :: s)
  | (.binop .opAssign, p2) :: s =>
    if p1.pmax = p2.pmin then (.opGte, s) else (.opGt, (.binop .opAssign, p2) :: s)
  | s => (.opGt, s)

section Grammar

variable (parseComplexType : List PlacedToken → Option ((TypeHint × Pos) × List PlacedToken))

mutual

/-- `expr`; `parsingMacroCond` is the global flag of that name. -/
@[grind =]
def expr (parsingMacroCond : Bool) : Nat → List PlacedToken → Option (Expr × List PlacedToken)
  | 0, _ => none
  | n + 1, (.kwd k, p) :: s =>
    if parsingMacroCond then
      exprNext parsingMacroCond n (.eConst (.ident (sKeyword k)) p) s
    else match k with
      | .kThis => exprNext parsingMacroCond n (.eConst (.ident "this") p) s
      | .kTrue => exprNext parsingMacroCond n (.eConst (.ident "true") p) s
      | .kFalse => exprNext parsingMacroCond n (.eConst (.ident "false") p) s
      | .kNull => exprNext parsingMacroCond n (.eConst (.ident "null") p) s
      | _ => none
  | n + 1, (.const c, p) :: s => exprNext parsingMacroCond n (.eConst c p) s
  | n + 1, (.pOpen, p1) :: s =>
    match expr parsingMacroCond n s with
    | some (e, (.pClose, p2) :: s) =>
      exprNext parsingMacroCond n (.eParenthesis e (punion p1 p2)) s
    | _ => none
  | n + 1, (.unop op, p1) :: s =>
    match expr parsingMacroCond n s with
    | some (e, s) => some (makeUnop op p1 e, s)
    | none => none
  | n + 1, (.spread, p1) :: s =>
    match expr parsingMacroCond n s with
    | some (e, s) => some (makeUnop .spread (punion p1 e.pos) e, s)
    | none => none
  | n + 1, (.binop .opSub, p1) :: s =>
    match expr parsingMacroCond n s with
    | some (e, s) => some (makeUnop .neg p1 e, s)
    | none => none
  | n + 1, (.intInterval i, p1) :: s =>
    match expr parsingMacroCond n s with
    | some (e2, s) => some (makeBinop .opInterval (.eConst (.int i) p1) e2, s)
    | none => none
  | n + 1, (.dollar v, p) :: s => exprNext parsingMacroCond n (.eConst (.ident ("$" ++ v)) p) s
  | _, _ => none

/-- `expr_next'`. -/
@[grind =] def exprNext (parsingMacroCond : Bool) :
    Nat → Expr → List PlacedToken → Option (Expr × List PlacedToken)
  | 0, _, _ => none
  | n + 1, e1, (.dot, p) :: s =>
    match s with
    | (.const (.ident f), p2) :: s' =>
      if p.pmax = p2.pmin then
        exprNext parsingMacroCond n (.eField e1 f (punion e1.pos p2)) s'
      else none
    | _ => none
  | n + 1, e1, (.pOpen, _) :: s =>
    match callParams parsingMacroCond n s with
    | some (el, (.pClose, p2) :: s) =>
      exprNext parsingMacroCond n (.eCall e1 el (punion e1.pos p2)) s
    | _ => none
  | n + 1, e1, (.bkOpen, _) :: s =>
    match expr parsingMacroCond n s with
    | some (e2, (.bkClose, p2) :: s) =>
      exprNext parsingMacroCond n (.eArray e1 e2 (punion e1.pos p2)) s
    | _ => none
  | n + 1, e1, (.binop .opGt, p1) :: s =>
    match compoundGt p1 s with
    | (op, s) =>
      match expr parsingMacroCond n s with
      | some (e2, s) => some (makeBinop op e1 e2, s)
      | none => none
  | n + 1, e1, (.binop op, _) :: s =>
    match expr parsingMacroCond n s with
    | some (e2, s) => some (makeBinop op e1 e2, s)
    | none => none
  | n + 1, e1, (.spread, _) :: s =>
    match expr parsingMacroCond n s with
    | some (e2, s) => some (makeBinop .opInterval e1 e2, s)
    | none => none
  | n + 1, e1, (.unop op, p) :: s =>
    if isPostfix op then
      exprNext parsingMacroCond n (.eUnop op .postfixFlag e1 (punion e1.pos p)) s
    else some (e1, (.unop op, p) :: s)
  | n + 1, e1, (.question, _) :: s =>
    match expr parsingMacroCond n s with
    | some (e2, (.dblDot, _) :: s) =>
      match expr parsingMacroCond n s with
      | some (e3, s) => some (.eTernary e1 e2 e3 (punion e1.pos e3.pos), s)
      | none => none
    | _ => none
  | n + 1, e1, (.kwd .kIn, _) :: s =>
    match expr parsingMacroCond n s with
    | some (e2, s) => some (makeBinop .opIn e1 e2, s)
    | none => none
  | n + 1, e1, (.const (.ident "is"), _) :: s =>
    match parseComplexType s with
    | some ((t, p2), s) => exprNext parsingMacroCond n (.eIs e1 t (punion e1.pos p2)) s
    | none => none
  | _ + 1, e1, s => some (e1, s)

/-- `psep Comma expr`, which reads no argument when the first one does not parse. -/
def callParams (parsingMacroCond : Bool) :
    Nat → List PlacedToken → Option (List Expr × List PlacedToken)
  | 0, _ => none
  | _ + 1, (.pClose, p) :: s => some ([], (.pClose, p) :: s)
  | n + 1, s =>
    match expr parsingMacroCond n s with
    | some (e, s) =>
      match callParamsLoop parsingMacroCond n s with
      | some (el, s) => some (e :: el, s)
      | none => none
    | none => none

/-- `loop` of `psep`. -/
def callParamsLoop (parsingMacroCond : Bool) :
    Nat → List PlacedToken → Option (List Expr × List PlacedToken)
  | 0, _ => none
  | n + 1, (.comma, _) :: s =>
    match expr parsingMacroCond n s with
    | some (e, s) =>
      match callParamsLoop parsingMacroCond n s with
      | some (el, s) => some (e :: el, s)
      | none => none
    | none => none
  | _ + 1, s => some ([], s)

end

end Grammar

end Haxe.Source.Syntax

/-!
## The trees of the precedence table

`flatten` reads an expression back as a chain of operands and operators. `Tabled` is the
table of `precedence` as a condition on every node. `makeBinop` and `makeUnop` repair
the left spine of a tree that was read from the right; both keep the chain and the table.
-/

namespace Haxe.Source.Syntax

open Typing (Pos)

/-- An element of a chain. Constants are listed without their position. -/
inductive Elem where
  | literal (c : Constant)
  | operand (e : Expr)
  | binop (op : Binop)
  | unop (op : Unop)
  | question
  | colon
  | isType (t : TypeHint)

@[grind =] def flatten : Expr → List Elem
  | .eBinop op l r _ => flatten l ++ .binop op :: flatten r
  | .eTernary e1 e2 e3 _ => flatten e1 ++ .question :: (flatten e2 ++ .colon :: flatten e3)
  | .eUnop op .prefixFlag e _ => .unop op :: flatten e
  | .eIs e t _ => flatten e ++ [.isType t]
  | .eConst c _ => [.literal c]
  | e => [.operand e]

/-- A prefix operator in front of a chain. A minus in front of a number is merged. -/
@[grind =] def prefixed : Unop → List Elem → List Elem
  | .neg, .literal (.int i) :: l => .literal (.int (negText i)) :: l
  | .neg, .literal (.float j) :: l => .literal (.float (negText j)) :: l
  | op, l => .unop op :: l

/-- The chain with every minus merged into the number that it stands in front of. -/
@[grind =] def mergeSigns : List Elem → List Elem
  | [] => []
  | .unop op :: l => prefixed op (mergeSigns l)
  | x :: l => x :: mergeSigns l

/-- What may be the left operand of `op`: an operator that associates to the left and
binds at least as tightly, and no ternary. -/
@[grind =] def LeftOk (op : Binop) : Expr → Prop
  | .eBinop op' _ _ _ => (precedence op').2 = true ∧ (precedence op').1 ≤ (precedence op).1
  | .eTernary _ _ _ _ => False
  | _ => True

/-- What may be the right operand of `op`: an operator that `op` does not swap with, and
a ternary only of an assignment. -/
def RightOk (op : Binop) : Expr → Prop
  | .eBinop op' _ _ _ =>
    (precedence op).2 = false ∨ (precedence op').1 < (precedence op).1
  | .eTernary _ _ _ _ => isNotAssign op = false
  | _ => True

/-- A prefix operator stands in front of one operand, which may have a prefix itself. -/
def UnaryOk : Expr → Prop
  | .eBinop _ _ _ _ | .eTernary _ _ _ _ | .eIs _ _ _ => False
  | _ => True

/-- Every node is as the precedence table says. Other expressions are opaque. -/
@[grind =] def Tabled : Expr → Prop
  | .eBinop op l r _ => LeftOk op l ∧ RightOk op r ∧ Tabled l ∧ Tabled r
  | .eTernary e1 e2 e3 _ => Tabled e1 ∧ Tabled e2 ∧ Tabled e3
  | .eUnop _ .prefixFlag e _ => UnaryOk e ∧ Tabled e
  | .eIs e _ _ => Tabled e
  | _ => True

/-- An expression that is no binary operator and no ternary, as the left operand that
`expr_next'` passes on. -/
def Opaque : Expr → Prop
  | .eBinop _ _ _ _ | .eTernary _ _ _ _ => False
  | _ => True

theorem swap_eq_true {op1 op2 : Binop} : swap op1 op2 = true ↔
    (precedence op1).2 = true ∧ (precedence op1).1 ≤ (precedence op2).1 := by
  simp [swap]

theorem swap_eq_false {op1 op2 : Binop} : swap op1 op2 = false ↔
    (precedence op1).2 = false ∨ (precedence op2).1 < (precedence op1).1 := by
  cases h : (precedence op1).2 <;> simp [swap, h]

/-! ## Chains -/

theorem flatten_ne_nil (e : Expr) : flatten e ≠ [] := by
  induction e using flatten.induct <;> simp_all [flatten]

theorem prefixed_append (op : Unop) {l : List Elem} (nonempty : l ≠ []) (l' : List Elem) :
    prefixed op (l ++ l') = prefixed op l ++ l' := by
  obtain ⟨x, l, rfl⟩ := List.exists_cons_of_ne_nil nonempty
  unfold prefixed
  cases op <;> cases x <;> simp
  split <;> simp_all

@[simp] theorem prefixed_operand (op : Unop) (e : Expr) (l : List Elem) :
    prefixed op (.operand e :: l) = .unop op :: .operand e :: l := by
  cases op <;> rfl

@[simp] theorem prefixed_unop (op op' : Unop) (l : List Elem) :
    prefixed op (.unop op' :: l) = .unop op :: .unop op' :: l := by
  cases op <;> rfl

theorem flatten_makeBinop (op : Binop) (e e2 : Expr) :
    flatten (makeBinop op e e2) = flatten e ++ .binop op :: flatten e2 := by
  induction e2 using makeBinop.induct op e with
  | case1 op' l r p2 swaps ih =>
    simp only [makeBinop, swaps, if_true, flatten, ih, List.append_assoc, List.cons_append]
  | case2 op' l r p2 stays => simp [makeBinop, stays, flatten]
  | case3 e1 e2 e3 p2 notAssign ih =>
    simp only [makeBinop, notAssign, if_true, flatten, ih, List.append_assoc,
      List.cons_append]
  | case4 e1 e2 e3 p2 assign => simp [makeBinop, assign, flatten]
  | case5 e2 notBinop notTernary => rw [makeBinop] <;> simp_all [flatten]

theorem flatten_makeUnop (op : Unop) (p1 : Pos) (e : Expr) :
    flatten (makeUnop op p1 e) = prefixed op (flatten e) := by
  fun_induction makeUnop op p1 e with
  | case1 bop e e2 p2 ih => simp only [flatten, ih, prefixed_append op (flatten_ne_nil e)]
  | case2 e1 e2 e3 p2 ih => simp only [flatten, ih, prefixed_append op (flatten_ne_nil e1)]
  | case3 e t p2 ih => simp only [flatten, ih, prefixed_append op (flatten_ne_nil e)]
  | case4 p2 i isNeg => rw [isNeg]; rfl
  | case5 p2 j isNeg => rw [isNeg]; rfl
  | case6 p2 c notInt notFloat =>
    unfold flatten prefixed
    cases op <;> cases c <;> simp_all [flatten]
  | case7 e notBinop notTernary notIs notConst =>
    cases e with
    | eBinop bop e e2 p2 => exact (notBinop bop e e2 p2 rfl).elim
    | eTernary e1 e2 e3 p2 => exact (notTernary e1 e2 e3 p2 rfl).elim
    | eIs e t p2 => exact (notIs e t p2 rfl).elim
    | eConst c p2 => exact (notConst c p2 rfl).elim
    | eUnop op' flag e p2 => cases flag <;> simp [flatten]
    | _ => simp [flatten]

/-! ## The table -/

/-- The root of a tree decides what may be above it, so two trees with one root operator
are alike for that. -/
theorem makeBinop_leftOk {op o : Binop} {e l : Expr} (swaps : swap op o = true)
    (left : LeftOk o l) : LeftOk o (makeBinop op e l) := by
  unfold makeBinop
  split
  · split
    · exact left
    · exact swap_eq_true.1 swaps
  · exact absurd left (by simp [LeftOk])
  · exact swap_eq_true.1 swaps

theorem tabled_makeBinop {op : Binop} {e e2 : Expr} (plain : Opaque e) (table : Tabled e)
    (table2 : Tabled e2) : Tabled (makeBinop op e e2) := by
  have leftOk : LeftOk op e := by cases e <;> simp_all [LeftOk, Opaque]
  induction e2 using makeBinop.induct op e with
  | case1 op' l r p2 swaps ih =>
    obtain ⟨left, right, tableL, tableR⟩ := table2
    simp only [makeBinop, swaps, if_true, Tabled]
    exact ⟨makeBinop_leftOk swaps left, right, ih tableL, tableR⟩
  | case2 op' l r p2 stays =>
    simp only [makeBinop, stays, if_false, Tabled, Bool.false_eq_true]
    exact ⟨leftOk, swap_eq_false.1 (by simpa using stays), table, table2⟩
  | case3 e1 e2 e3 p2 notAssign ih =>
    obtain ⟨table1, tables⟩ := table2
    simp only [makeBinop, notAssign, if_true, Tabled]
    exact ⟨ih table1, tables⟩
  | case4 e1 e2 e3 p2 assign =>
    simp only [makeBinop, assign, if_false, Tabled, Bool.false_eq_true]
    exact ⟨leftOk, by simpa [RightOk] using assign, table, table2⟩
  | case5 e2 notBinop notTernary =>
    rw [makeBinop]
    · refine ⟨leftOk, ?_, table, table2⟩
      cases e2 with
      | eBinop op' l r p2 => exact absurd rfl (notBinop op' l r p2)
      | eTernary e1 e2 e3 p2 => exact absurd rfl (notTernary e1 e2 e3 p2)
      | _ => trivial
    · exact notBinop
    · exact notTernary

theorem makeUnop_leftOk {op : Unop} {o : Binop} {p1 : Pos} {l : Expr} (left : LeftOk o l) :
    LeftOk o (makeUnop op p1 l) := by
  cases l with
  | eConst c p2 => cases op <;> cases c <;> simp [makeUnop, LeftOk]
  | eBinop => exact left
  | eTernary => exact left.elim
  | _ => simp [makeUnop, LeftOk]

theorem tabled_makeUnop {op : Unop} {p1 : Pos} {e : Expr} (table : Tabled e) :
    Tabled (makeUnop op p1 e) := by
  fun_induction makeUnop op p1 e with
  | case1 bop e e2 p2 ih =>
    obtain ⟨left, right, tableL, tableR⟩ := table
    exact ⟨makeUnop_leftOk left, right, ih tableL, tableR⟩
  | case2 e1 e2 e3 p2 ih =>
    obtain ⟨table1, tables⟩ := table
    exact ⟨ih table1, tables⟩
  | case3 e t p2 ih => exact ih table
  | case4 => trivial
  | case5 => trivial
  | case6 => exact ⟨trivial, trivial⟩
  | case7 e notBinop notTernary notIs notConst =>
    refine ⟨?_, table⟩
    cases e with
    | eBinop bop e e2 p2 => exact notBinop bop e e2 p2 rfl
    | eTernary e1 e2 e3 p2 => exact notTernary e1 e2 e3 p2 rfl
    | eIs e t p2 => exact notIs e t p2 rfl
    | _ => trivial

end Haxe.Source.Syntax
