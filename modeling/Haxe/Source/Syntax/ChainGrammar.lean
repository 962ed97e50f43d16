import Haxe.Source.Syntax.Parser
import Haxe.Theory.Fuel

/-!
# Chains of operands and operators

The texts that the claim about precedence is about, as a grammar: operands with their
suffixes, operators as the tokens that the lexer gives for them (`>>=` is three tokens
that touch), prefix operators and ternaries. `build` is the tree that the parser makes
of a chain, and `expr_chain` says that it does.
-/

namespace Haxe.Source.Syntax

open Typing (Pos punion)
open Theory (Settles)

/-- The tokens of a prefix operator. -/
inductive PrefixToken where
  | unop (op : Unop) (p : Pos)
  | spread (p : Pos)
  | minus (p : Pos)

namespace PrefixToken

def token : PrefixToken → PlacedToken
  | unop op p => (.unop op, p)
  | spread p => (.spread, p)
  | minus p => (.binop .opSub, p)

@[grind =] def op : PrefixToken → Unop
  | unop op _ => op
  | spread _ => .spread
  | minus _ => .neg

/-- The tree for the operator in front of `e`. -/
@[grind =] def apply (u : PrefixToken) (e : Expr) : Expr :=
  match u with
  | unop op p => makeUnop op p e
  | spread p => makeUnop .spread (punion p e.pos) e
  | minus p => makeUnop .neg p e

end PrefixToken

/-- The tokens of a binary operator. Those that start with `>` are read one by one. -/
inductive InfixToken where
  | plain (op : Binop) (p : Pos) (notGt : op ≠ .opGt)
  | gt (p1 : Pos)
  | gte (p1 p2 : Pos) (touch : p1.pmax = p2.pmin)
  | shr (p1 p2 : Pos) (touch : p1.pmax = p2.pmin)
  | shrAssign (p1 p2 p3 : Pos) (touch : p1.pmax = p2.pmin) (touch2 : p2.pmax = p3.pmin)
  | ushr (p1 p2 p3 : Pos) (touch : p1.pmax = p2.pmin) (touch2 : p2.pmax = p3.pmin)
  | ushrAssign (p1 p2 p3 p4 : Pos) (touch : p1.pmax = p2.pmin) (touch2 : p2.pmax = p3.pmin)
      (touch3 : p3.pmax = p4.pmin)
  | interval (p : Pos)
  | in_ (p : Pos)

namespace InfixToken

@[grind =] def op : InfixToken → Binop
  | plain op _ _ => op
  | gt _ => .opGt
  | gte _ _ _ => .opGte
  | shr _ _ _ => .opShr
  | shrAssign _ _ _ _ _ => .opAssignOp .opShr
  | ushr _ _ _ _ _ => .opUShr
  | ushrAssign _ _ _ _ _ _ _ => .opAssignOp .opUShr
  | interval _ => .opInterval
  | in_ _ => .opIn

@[grind =] def tokens : InfixToken → List PlacedToken
  | plain op p _ => [(.binop op, p)]
  | gt p1 => [(.binop .opGt, p1)]
  | gte p1 p2 _ => [(.binop .opGt, p1), (.binop .opAssign, p2)]
  | shr p1 p2 _ => [(.binop .opGt, p1), (.binop .opGt, p2)]
  | shrAssign p1 p2 p3 _ _ =>
    [(.binop .opGt, p1), (.binop .opGt, p2), (.binop .opAssign, p3)]
  | ushr p1 p2 p3 _ _ => [(.binop .opGt, p1), (.binop .opGt, p2), (.binop .opGt, p3)]
  | ushrAssign p1 p2 p3 p4 _ _ _ =>
    [(.binop .opGt, p1), (.binop .opGt, p2), (.binop .opGt, p3), (.binop .opAssign, p4)]
  | interval p => [(.spread, p)]
  | in_ p => [(.kwd .kIn, p)]

end InfixToken

/-- The keywords that are operands. -/
inductive OperandKeyword where
  | kThis | kTrue | kFalse | kNull

def OperandKeyword.keyword : OperandKeyword → Keyword
  | kThis => .kThis
  | kTrue => .kTrue
  | kFalse => .kFalse
  | kNull => .kNull

mutual

inductive Chain where
  | last (a : Primary)
  | unary (u : PrefixToken) (c : Chain)
  | interval (i : String) (p : Pos) (c : Chain)
  | binop (a : Primary) (o : InfixToken) (c : Chain)
  | ternary (a : Primary) (p1 : Pos) (c1 : Chain) (p2 : Pos) (c2 : Chain)

/-- An operand with its suffixes. -/
inductive Primary where
  | const (c : Constant) (p : Pos)
  | keyword (k : OperandKeyword) (p : Pos)
  | dollar (v : String) (p : Pos)
  | parenthesis (p1 : Pos) (c : Chain) (p2 : Pos)
  | field (a : Primary) (p : Pos) (f : String) (p2 : Pos) (touch : p.pmax = p2.pmin)
  | call (a : Primary) (p1 : Pos) (el : Params) (p2 : Pos)
  | array (a : Primary) (p1 : Pos) (c : Chain) (p2 : Pos)
  | postfixed (a : Primary) (op : Unop) (p : Pos) (allowed : isPostfix op = true)

inductive Params where
  | none
  | some (c : Chain) (more : MoreParams)

inductive MoreParams where
  | none
  | comma (p : Pos) (c : Chain) (more : MoreParams)

end

mutual

@[grind =] def Chain.tokens : Chain → List PlacedToken
  | .last a => a.tokens
  | .unary u c => u.token :: c.tokens
  | .interval i p c => (.intInterval i, p) :: c.tokens
  | .binop a o c => a.tokens ++ (o.tokens ++ c.tokens)
  | .ternary a p1 c1 p2 c2 =>
    a.tokens ++ (.question, p1) :: (c1.tokens ++ (.dblDot, p2) :: c2.tokens)

@[grind =] def Primary.tokens : Primary → List PlacedToken
  | .const c p => [(.const c, p)]
  | .keyword k p => [(.kwd k.keyword, p)]
  | .dollar v p => [(.dollar v, p)]
  | .parenthesis p1 c p2 => (.pOpen, p1) :: (c.tokens ++ [(.pClose, p2)])
  | .field a p f p2 _ => a.tokens ++ [(.dot, p), (.const (.ident f), p2)]
  | .call a p1 el p2 => a.tokens ++ (.pOpen, p1) :: (el.tokens ++ [(.pClose, p2)])
  | .array a p1 c p2 => a.tokens ++ (.bkOpen, p1) :: (c.tokens ++ [(.bkClose, p2)])
  | .postfixed a op p _ => a.tokens ++ [(.unop op, p)]

@[grind =] def Params.tokens : Params → List PlacedToken
  | .none => []
  | .some c more => c.tokens ++ more.tokens

@[grind =] def MoreParams.tokens : MoreParams → List PlacedToken
  | .none => []
  | .comma p c more => (.comma, p) :: (c.tokens ++ more.tokens)

end

mutual

/-- The tree of a chain: the operators are put in from the right. -/
@[grind =] def Chain.build : Chain → Expr
  | .last a => a.build
  | .unary u c => u.apply c.build
  | .interval i p c => makeBinop .opInterval (.eConst (.int i) p) c.build
  | .binop a o c => makeBinop o.op a.build c.build
  | .ternary a _ c1 _ c2 =>
    .eTernary a.build c1.build c2.build (punion a.build.pos c2.build.pos)

@[grind =] def Primary.build : Primary → Expr
  | .const c p => .eConst c p
  | .keyword k p => .eConst (.ident (sKeyword k.keyword)) p
  | .dollar v p => .eConst (.ident ("$" ++ v)) p
  | .parenthesis p1 c p2 => .eParenthesis c.build (punion p1 p2)
  | .field a _ f p2 _ => .eField a.build f (punion a.build.pos p2)
  | .call a _ el p2 => .eCall a.build el.build (punion a.build.pos p2)
  | .array a _ c p2 => .eArray a.build c.build (punion a.build.pos p2)
  | .postfixed a op p _ => .eUnop op .postfixFlag a.build (punion a.build.pos p)

@[grind =] def Params.build : Params → List Expr
  | .none => []
  | .some c more => c.build :: more.build

@[grind =] def MoreParams.build : MoreParams → List Expr
  | .none => []
  | .comma _ c more => c.build :: more.build

end

/-- The chain as the grammar's user writes it; operands are opaque. -/
@[grind =] def Chain.elems : Chain → List Elem
  | .last a => flatten a.build
  | .unary u c => .unop u.op :: c.elems
  | .interval i _ c => .literal (.int i) :: .binop .opInterval :: c.elems
  | .binop a o c => flatten a.build ++ .binop o.op :: c.elems
  | .ternary a _ c1 _ c2 =>
    flatten a.build ++ .question :: (c1.elems ++ .colon :: c2.elems)

/-! ## Operands -/

theorem Primary.build_opaque (a : Primary) : Opaque a.build := by
  cases a <;> simp [Primary.build, Opaque]

theorem Primary.build_tabled (a : Primary) : Tabled a.build := by
  cases a <;> simp [Primary.build, Tabled]

theorem Primary.flatten_build (a : Primary) :
    (∃ c, flatten a.build = [.literal c]) ∨ ∃ e, flatten a.build = [.operand e] := by
  cases a with
  | const | keyword | dollar => exact Or.inl ⟨_, by simp only [Primary.build, flatten]; rfl⟩
  | _ => exact Or.inr ⟨_, by simp only [Primary.build, flatten]; rfl⟩

/-! ## The tree of a chain -/

theorem Chain.build_tabled : ∀ c : Chain, Tabled c.build
  | .last a => by simpa only [Chain.build] using a.build_tabled
  | .unary u c => by
    have table := c.build_tabled
    cases u <;> simpa only [Chain.build, PrefixToken.apply] using tabled_makeUnop table
  | .interval i p c => by
    simpa only [Chain.build] using
      tabled_makeBinop (e := .eConst (.int i) p) trivial trivial c.build_tabled
  | .binop a o c => by
    simpa only [Chain.build] using
      tabled_makeBinop a.build_opaque a.build_tabled c.build_tabled
  | .ternary a _ c1 _ c2 => by
    simpa only [Chain.build, Tabled] using
      ⟨a.build_tabled, c1.build_tabled, c2.build_tabled⟩

theorem prefixed_append_cons (op : Unop) (l l' : List Elem) {x : Elem}
    (notNumber : ∀ c, x ≠ .literal c) :
    prefixed op (l ++ x :: l') = prefixed op l ++ x :: l' := by
  cases l with
  | nil => cases x <;> cases op <;> simp_all [prefixed]
  | cons y l => exact prefixed_append op (List.cons_ne_nil y l) (x :: l')

theorem mergeSigns_append_cons (l l' : List Elem) {x : Elem} (notUnop : ∀ op, x ≠ .unop op)
    (notNumber : ∀ c, x ≠ .literal c) :
    mergeSigns (l ++ x :: l') = mergeSigns l ++ x :: mergeSigns l' := by
  fun_induction mergeSigns l with
  | case1 => cases x <;> simp_all [mergeSigns]
  | case2 op l ih =>
    rw [List.cons_append, mergeSigns, ih, prefixed_append_cons op _ _ notNumber]
  | case3 y l other ih =>
    cases y <;> simp_all [mergeSigns]

theorem Primary.mergeSigns_build (a : Primary) :
    mergeSigns (flatten a.build) = flatten a.build := by
  obtain ⟨c, single⟩ | ⟨e, single⟩ := a.flatten_build <;> rw [single] <;> rfl

theorem Chain.flatten_build : ∀ c : Chain, flatten c.build = mergeSigns c.elems
  | .last a => by simp only [Chain.build, Chain.elems, a.mergeSigns_build]
  | .unary u c => by
    have chain := c.flatten_build
    cases u <;>
      simp only [Chain.build, PrefixToken.apply, flatten_makeUnop, chain, Chain.elems,
        mergeSigns, PrefixToken.op]
  | .interval i p c => by
    have chain := c.flatten_build
    simp only [Chain.build, flatten_makeBinop, chain, Chain.elems, mergeSigns, flatten,
      List.cons_append, List.nil_append]
  | .binop a o c => by
    have chain := c.flatten_build
    simp only [Chain.build, flatten_makeBinop, chain, Chain.elems]
    rw [mergeSigns_append_cons _ _ (by simp) (by simp), a.mergeSigns_build]
  | .ternary a _ c1 _ c2 => by
    have chain1 := c1.flatten_build
    have chain2 := c2.flatten_build
    simp only [Chain.build, flatten, chain1, chain2, Chain.elems]
    rw [mergeSigns_append_cons _ _ (by simp) (by simp), a.mergeSigns_build,
      mergeSigns_append_cons _ _ (by simp) (by simp)]

/-! ## The parser builds the tree -/

/-- The tokens that `expr_next'` does not stop at. -/
def continues : Token → Bool
  | .dot | .pOpen | .bkOpen | .brOpen | .arrow | .binop _ | .spread | .question => true
  | .kwd .kIn => true
  | .unop op => isPostfix op
  | .const (.ident "is") => true
  | _ => false

/-- A chain ends in front of `rest`. -/
def Stops : List PlacedToken → Prop
  | [] => True
  | (t, _) :: _ => continues t = false

section

variable (parseComplexType : List PlacedToken → Option ((TypeHint × Pos) × List PlacedToken))
variable (parsingMacroCond : Bool)

theorem exprNext_stops {rest : List PlacedToken} (stops : Stops rest) (e1 : Expr) :
    Settles (fun n => exprNext parseComplexType parsingMacroCond n e1 rest)
      (some (e1, rest)) := by
  refine Settles.done fun m => ?_
  unfold exprNext
  split <;> simp_all [Stops, continues]

/-- The tokens that a chain starts with. -/
@[grind =] def opens : Token → Bool
  | .const _ | .dollar _ | .pOpen | .unop _ | .spread | .binop .opSub | .intInterval _ => true
  | .kwd k => k = .kThis ∨ k = .kTrue ∨ k = .kFalse ∨ k = .kNull
  | _ => false

theorem PrefixToken.opens_token (u : PrefixToken) : opens u.token.1 = true := by
  cases u <;> rfl

theorem Primary.opens_head : ∀ a : Primary,
    ∃ t s, a.tokens = t :: s ∧ opens t.1 = true
  | .const c p => ⟨_, _, rfl, rfl⟩
  | .keyword k p => ⟨_, _, rfl, by cases k <;> rfl⟩
  | .dollar v p => ⟨_, _, rfl, rfl⟩
  | .parenthesis p1 c p2 => ⟨_, _, rfl, rfl⟩
  | .field a p f p2 _ | .call a p _ p2 | .array a p _ p2 | .postfixed a _ p _ => by
    obtain ⟨t, s, tokens, open_⟩ := a.opens_head
    exact ⟨t, _, by rw [Primary.tokens, tokens]; rfl, open_⟩

theorem Chain.opens_head : ∀ c : Chain, ∃ t s, c.tokens = t :: s ∧ opens t.1 = true
  | .unary u c => ⟨_, _, rfl, u.opens_token⟩
  | .interval i p c => ⟨_, _, rfl, rfl⟩
  | .last a => by simpa only [Chain.tokens] using a.opens_head
  | .binop a _ _ | .ternary a _ _ _ _ => by
    obtain ⟨t, s, tokens, open_⟩ := a.opens_head
    exact ⟨t, _, by rw [Chain.tokens, tokens]; rfl, open_⟩

/-- No chain starts with `>` or `=`, so the tokens of an operator end where it ends. -/
theorem compoundGt_tokens {o : InfixToken} {p1 : Pos} {more : List PlacedToken}
    (tokens : o.tokens = (.binop .opGt, p1) :: more) {t : PlacedToken} (s : List PlacedToken)
    (open_ : opens t.1 = true) : compoundGt p1 (more ++ t :: s) = (o.op, t :: s) := by
  obtain ⟨t, p⟩ := t
  have notGt : t ≠ .binop .opGt := fun same => by simp [same, opens] at open_
  have notAssign : t ≠ .binop .opAssign := fun same => by simp [same, opens] at open_
  cases o with
  | plain op p notGt => simp_all [InfixToken.tokens]
  | gt p1 =>
    obtain ⟨rfl, rfl⟩ : _ ∧ [] = more := by simpa [InfixToken.tokens] using tokens
    unfold compoundGt
    split <;> simp_all [InfixToken.op]
  | gte p1 p2 touch =>
    obtain ⟨rfl, rfl⟩ : _ ∧ _ = more := by simpa [InfixToken.tokens] using tokens
    simp [compoundGt, touch, InfixToken.op]
  | shr p1 p2 touch =>
    obtain ⟨rfl, rfl⟩ : _ ∧ _ = more := by simpa [InfixToken.tokens] using tokens
    simp only [compoundGt, touch, List.cons_append, List.nil_append, if_true]
    split <;> simp_all [InfixToken.op]
  | shrAssign p1 p2 p3 touch touch2 =>
    obtain ⟨rfl, rfl⟩ : _ ∧ _ = more := by simpa [InfixToken.tokens] using tokens
    simp [compoundGt, touch, touch2, InfixToken.op]
  | ushr p1 p2 p3 touch touch2 =>
    obtain ⟨rfl, rfl⟩ : _ ∧ _ = more := by simpa [InfixToken.tokens] using tokens
    simp only [compoundGt, touch, touch2, List.cons_append, List.nil_append, if_true]
    split <;> simp_all [InfixToken.op]
  | ushrAssign p1 p2 p3 p4 touch touch2 touch3 =>
    obtain ⟨rfl, rfl⟩ : _ ∧ _ = more := by simpa [InfixToken.tokens] using tokens
    simp [compoundGt, touch, touch2, touch3, InfixToken.op]
  | interval p => simp [InfixToken.tokens] at tokens
  | in_ p => simp [InfixToken.tokens] at tokens

theorem exprNext_infixToken (o : InfixToken) {c : Chain} {rest s : List PlacedToken} (e1 : Expr)
    {r : Expr}
    (parsed : Settles (fun n => expr parseComplexType parsingMacroCond n (c.tokens ++ rest))
      (some (r, s))) :
    Settles (fun n => exprNext parseComplexType parsingMacroCond n e1
      (o.tokens ++ (c.tokens ++ rest))) (some (makeBinop o.op e1 r, s)) := by
  obtain ⟨t, cs, tokens, open_⟩ := c.opens_head
  refine Settles.step parsed fun m call => ?_
  rw [tokens, List.cons_append] at call ⊢
  by_cases startsGt : ∃ p1 more, o.tokens = (.binop .opGt, p1) :: more
  · obtain ⟨p1, more, tokensO⟩ := startsGt
    have compound := compoundGt_tokens tokensO (cs ++ rest) open_
    simp only [tokensO, List.cons_append, exprNext, compound, call]
  · cases o with
    | plain op p notGt =>
      simp only [InfixToken.tokens, List.cons_append, List.nil_append, InfixToken.op]
      rw [exprNext, call]
      exact notGt
    | interval p =>
      simp only [InfixToken.tokens, List.cons_append, List.nil_append, InfixToken.op,
        exprNext, call]
    | in_ p =>
      simp only [InfixToken.tokens, List.cons_append, List.nil_append, InfixToken.op,
        exprNext, call]
    | _ => exact (startsGt ⟨_, _, rfl⟩).elim

mutual

theorem expr_chain (c : Chain) {rest : List PlacedToken} (stops : Stops rest) :
    Settles (fun n => expr parseComplexType parsingMacroCond n (c.tokens ++ rest))
      (some (c.build, rest)) := by
  cases c with
  | last a =>
    simp only [Chain.tokens, Chain.build]
    exact expr_primary a (exprNext_stops parseComplexType parsingMacroCond stops a.build)
  | unary u c =>
    refine Settles.step (expr_chain c stops) fun m call => ?_
    cases u <;>
      simp only [Chain.tokens, PrefixToken.token, List.cons_append, expr, call, Chain.build,
        PrefixToken.apply]
  | interval i p c =>
    refine Settles.step (expr_chain c stops) fun m call => ?_
    simp only [Chain.tokens, List.cons_append, expr, call, Chain.build]
  | binop a o c =>
    simp only [Chain.tokens, List.append_assoc, Chain.build]
    exact expr_primary a
      (exprNext_infixToken parseComplexType parsingMacroCond o a.build (expr_chain c stops))
  | ternary a p1 c1 p2 c2 =>
    simp only [Chain.tokens, List.append_assoc, List.cons_append, Chain.build]
    refine expr_primary a ?_
    have first : Stops ((.dblDot, p2) :: (c2.tokens ++ rest)) := rfl
    refine Settles.step₂ (expr_chain c1 first) (expr_chain c2 stops) fun m call1 call2 => ?_
    simp only [exprNext, call1, call2]

/-- An operand is read by `expr` and, after its first token, by `expr_next'`, which goes
on behind it. -/
theorem expr_primary (a : Primary) {rest : List PlacedToken}
    {r : Option (Expr × List PlacedToken)}
    (next : Settles (fun n => exprNext parseComplexType parsingMacroCond n a.build rest) r) :
    Settles (fun n => expr parseComplexType parsingMacroCond n (a.tokens ++ rest)) r := by
  cases a with
  | const c p =>
    refine Settles.succ (fun m => ?_) next
    simp only [Primary.tokens, List.cons_append, List.nil_append, expr, Primary.build]
  | keyword k p =>
    refine Settles.succ (fun m => ?_) next
    cases k <;>
      simp [Primary.tokens, expr, Primary.build, OperandKeyword.keyword, sKeyword]
  | dollar v p =>
    refine Settles.succ (fun m => ?_) next
    simp only [Primary.tokens, List.cons_append, List.nil_append, expr, Primary.build]
  | parenthesis p1 c p2 =>
    have stops : Stops ((.pClose, p2) :: rest) := rfl
    refine Settles.step₂ (expr_chain c stops) next fun m call call2 => ?_
    simp only [Primary.tokens, List.cons_append, List.append_assoc, List.nil_append, expr,
      call]
    exact call2
  | field a p f p2 touch =>
    simp only [Primary.tokens, List.append_assoc]
    refine expr_primary a (Settles.succ (fun m => ?_) next)
    simp only [List.cons_append, List.nil_append, exprNext, touch, if_true, Primary.build]
  | call a p1 el p2 =>
    simp only [Primary.tokens, List.append_assoc, List.cons_append, List.nil_append]
    refine expr_primary a ?_
    refine Settles.step₂ (callParams_params el p2 rest) next fun m call call2 => ?_
    simp only [exprNext, call]
    exact call2
  | array a p1 c p2 =>
    simp only [Primary.tokens, List.append_assoc, List.cons_append, List.nil_append]
    have stops : Stops ((.bkClose, p2) :: rest) := rfl
    refine expr_primary a ?_
    refine Settles.step₂ (expr_chain c stops) next fun m call call2 => ?_
    simp only [exprNext, call]
    exact call2
  | postfixed a op p allowed =>
    simp only [Primary.tokens, List.append_assoc]
    refine expr_primary a (Settles.succ (fun m => ?_) next)
    simp only [List.cons_append, List.nil_append, exprNext, allowed, if_true, Primary.build]

theorem callParams_params (el : Params) (p2 : Pos) (rest : List PlacedToken) :
    Settles (fun n => callParams parseComplexType parsingMacroCond n
      (el.tokens ++ (.pClose, p2) :: rest)) (some (el.build, (.pClose, p2) :: rest)) := by
  cases el with
  | none => exact Settles.done fun m => rfl
  | some c more =>
    have stops : Stops (more.tokens ++ (.pClose, p2) :: rest) := by cases more <;> rfl
    obtain ⟨t, s, tokens, open_⟩ := c.opens_head
    have next := callParams_more more p2 rest
    refine Settles.step₂ (expr_chain c stops) next fun m call call2 => ?_
    simp only [Params.tokens, List.append_assoc, Params.build]
    rw [tokens, List.cons_append] at call ⊢
    rw [callParams]
    · simp only [call, call2]
    · intro p s' same
      obtain ⟨rfl, -⟩ := List.cons.inj same
      simp [opens] at open_

theorem callParams_more (more : MoreParams) (p2 : Pos) (rest : List PlacedToken) :
    Settles (fun n => callParamsLoop parseComplexType parsingMacroCond n
      (more.tokens ++ (.pClose, p2) :: rest)) (some (more.build, (.pClose, p2) :: rest)) := by
  cases more with
  | none => exact Settles.done fun m => rfl
  | comma p c more =>
    have stops : Stops (more.tokens ++ (.pClose, p2) :: rest) := by cases more <;> rfl
    have next := callParams_more more p2 rest
    refine Settles.step₂ (expr_chain c stops) next fun m call call2 => ?_
    simp only [MoreParams.tokens, List.cons_append, List.append_assoc, MoreParams.build,
      callParamsLoop, call, call2]

end

end

end Haxe.Source.Syntax
