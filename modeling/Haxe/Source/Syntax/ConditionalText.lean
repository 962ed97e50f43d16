import Haxe.Source.Syntax.ParserEntry

/-!
# Texts with conditional compilation

Token streams whose directives are well nested, as a grammar, and what a reader of such
a text expects: the tokens of the first branch whose condition holds. A `File` may end
inside conditionals that are not closed. `visits` lists every token with whether it is
live and the conditions that it stands under: those around a conditional are the same
before its `#if` and after its `#end`.
-/

namespace Haxe.Source.Syntax

open Typing (Pos)
open ConditionHandler (negate currentCondition)

variable {F : Type}

/-- No directive and not the end of the file. -/
def isPlain : Token → Bool
  | .sharp _ | .eof => false
  | _ => true

def isComment : Token → Bool
  | .comment _ | .commentLine _ => true
  | _ => false

/-- The text of a condition: `parse_macro_cond` reads it and nothing behind it. -/
structure Condition (cfg : Config F) where
  tokens : List PlacedToken
  e : Expr
  reads : ∀ rest, macroCond cfg (tokens ++ rest) = some ((e, []), rest)

mutual

inductive Text (cfg : Config F) where
  | nil
  | token (tk : PlacedToken) (plain : isPlain tk.1 = true) (rest : Text cfg)
  | line (p : Pos) (s : String) (p2 : Pos) (rest : Text cfg)
  | error (p : Pos) (rest : Text cfg)
  | conditional (p : Pos) (c : Condition cfg) (body : Text cfg) (branches : Branches cfg)
      (rest : Text cfg)

/-- What follows the body of a branch, up to the `#end`. -/
inductive Branches (cfg : Config F) where
  | endif (p : Pos)
  | elseif (p : Pos) (c : Condition cfg) (body : Text cfg) (branches : Branches cfg)
  | else_ (p : Pos) (body : Text cfg) (p2 : Pos)

end

mutual

/-- A text, or one that ends inside a conditional. -/
inductive File (cfg : Config F) where
  | complete (t : Text cfg)
  | unclosed (t : Text cfg) (p : Pos) (c : Condition cfg) (branches : Unclosed cfg)

/-- The body of a branch and what follows it, when the `#end` is missing. -/
inductive Unclosed (cfg : Config F) where
  | inside (f : File cfg)
  | elseif (body : Text cfg) (p : Pos) (c : Condition cfg) (branches : Unclosed cfg)
  | else_ (body : Text cfg) (p : Pos) (f : File cfg)

end

section Tokens

variable {cfg : Config F}

mutual

@[grind =] def Text.tokens : Text cfg → List PlacedToken
  | .nil => []
  | .token tk _ rest => tk :: rest.tokens
  | .line p s p2 rest => (.sharp "line", p) :: (.const (.int s), p2) :: rest.tokens
  | .error p rest => (.sharp "error", p) :: rest.tokens
  | .conditional p c body branches rest =>
    (.sharp "if", p) :: (c.tokens ++ (body.tokens ++ (branches.tokens ++ rest.tokens)))

@[grind =] def Branches.tokens : Branches cfg → List PlacedToken
  | .endif p => [(.sharp "end", p)]
  | .elseif p c body branches =>
    (.sharp "elseif", p) :: (c.tokens ++ (body.tokens ++ branches.tokens))
  | .else_ p body p2 => (.sharp "else", p) :: (body.tokens ++ [(.sharp "end", p2)])

end

mutual

@[grind =] def File.tokens : File cfg → List PlacedToken
  | .complete t => t.tokens
  | .unclosed t p c branches =>
    t.tokens ++ (.sharp "if", p) :: (c.tokens ++ branches.tokens)

@[grind =] def Unclosed.tokens : Unclosed cfg → List PlacedToken
  | .inside f => f.tokens
  | .elseif body p c branches =>
    body.tokens ++ (.sharp "elseif", p) :: (c.tokens ++ branches.tokens)
  | .else_ body p f => body.tokens ++ (.sharp "else", p) :: f.tokens

end

end Tokens

/-! ## What a reader expects -/

variable (cfg : Config F)

def holds (e : Expr) : Bool :=
  match eval cfg.numbers cfg.definedValue e with
  | .ok v => isTrue cfg.numbers v
  | .error _ => false

/-- The condition has a value. -/
def Evaluates (e : Expr) : Prop := ∃ v, eval cfg.numbers cfg.definedValue e = .ok v

variable {cfg}

mutual

/-- The tokens outside all directives, or in the first branch that holds. -/
@[grind =] def Text.delivered : Text cfg → List PlacedToken
  | .nil => []
  | .token tk _ rest => if isComment tk.1 then rest.delivered else tk :: rest.delivered
  | .line _ _ _ rest => rest.delivered
  | .error _ rest => rest.delivered
  | .conditional _ c body branches rest =>
    (if holds cfg c.e then body.delivered else branches.delivered) ++ rest.delivered

@[grind =] def Branches.delivered : Branches cfg → List PlacedToken
  | .endif _ => []
  | .elseif _ c body branches =>
    if holds cfg c.e then body.delivered else branches.delivered
  | .else_ _ body _ => body.delivered

end

mutual

/-- The conditions that have to be evaluated: not those behind the branch taken and not
those in skipped branches. -/
@[grind =] def Text.evaluated : Text cfg → List Expr
  | .nil => []
  | .token _ _ rest => rest.evaluated
  | .line _ _ _ rest => rest.evaluated
  | .error _ rest => rest.evaluated
  | .conditional _ c body branches rest =>
    c.e :: ((if holds cfg c.e then body.evaluated else branches.evaluated) ++ rest.evaluated)

@[grind =] def Branches.evaluated : Branches cfg → List Expr
  | .endif _ => []
  | .elseif _ c body branches =>
    c.e :: if holds cfg c.e then body.evaluated else branches.evaluated
  | .else_ _ body _ => body.evaluated

end

/-- The conditional stack behind an `#else` or in front of the condition of an
`#elseif`. -/
@[grind =] def negateTop : List Expr → List Expr
  | [] => []
  | e :: el => negate e :: el

@[grind =] def deepen : List Nat → List Nat
  | [] => []
  | depth :: depths => (depth + 1) :: depths

mutual

/-- The tokens with the conditions `st` and depths `ds` around the text. -/
@[grind =] def Text.visits (st : List Expr) (ds : List Nat) (live : Bool) : Text cfg → List Visit
  | .nil => []
  | .token tk _ rest => ⟨tk, live, st, ds⟩ :: rest.visits st ds live
  | .line p s p2 rest =>
    ⟨(.sharp "line", p), live, st, ds⟩ :: ⟨(.const (.int s), p2), live, st, ds⟩ ::
      rest.visits st ds live
  | .error p rest => ⟨(.sharp "error", p), live, st, ds⟩ :: rest.visits st ds live
  | .conditional p c body branches rest =>
    ⟨(.sharp "if", p), live, st, ds⟩ ::
      (body.visits (c.e :: st) (1 :: ds) (live && holds cfg c.e) ++
        (branches.visits (c.e :: st) (1 :: ds) (live && holds cfg c.e)
            (live && !holds cfg c.e) ++
          rest.visits st ds live))

/-- The branch before is live if `taken`; `seeking` when no branch was taken so far. -/
@[grind =] def Branches.visits (st : List Expr) (ds : List Nat) (taken seeking : Bool) :
    Branches cfg → List Visit
  | .endif p => [⟨(.sharp "end", p), taken, st, ds⟩]
  | .elseif p c body branches =>
    ⟨(.sharp "elseif", p), taken, st, ds⟩ ::
      (body.visits (c.e :: negateTop st) (deepen ds) (seeking && holds cfg c.e) ++
        branches.visits (c.e :: negateTop st) (deepen ds) (seeking && holds cfg c.e)
          (seeking && !holds cfg c.e))
  | .else_ p body p2 =>
    ⟨(.sharp "else", p), taken, st, ds⟩ :: (body.visits (negateTop st) ds seeking ++
      [⟨(.sharp "end", p2), seeking, negateTop st, ds⟩])

end

mutual

/-- Nothing in the text ends the parse: every condition has a value, and in live text
there is no `#error`, every `#line` has a number and no line comment is completed. -/
def Text.Undisturbed (live : Bool) : Text cfg → Prop
  | .nil => True
  | .token tk _ rest =>
    (live = true → ∀ s, tk.1 = .commentLine s → completesAt cfg tk.2 = false) ∧
      rest.Undisturbed live
  | .line _ s _ rest =>
    (live = true → (cfg.numbers.intOfString s).isSome) ∧ rest.Undisturbed live
  | .error _ rest => live = false ∧ rest.Undisturbed live
  | .conditional _ c body branches rest =>
    Evaluates cfg c.e ∧ body.Undisturbed (live && holds cfg c.e) ∧
      branches.Undisturbed (live && !holds cfg c.e) ∧ rest.Undisturbed live

def Branches.Undisturbed (seeking : Bool) : Branches cfg → Prop
  | .endif _ => True
  | .elseif _ c body branches =>
    Evaluates cfg c.e ∧ body.Undisturbed (seeking && holds cfg c.e) ∧
      branches.Undisturbed (seeking && !holds cfg c.e)
  | .else_ _ body _ => body.Undisturbed seeking

end

/-! ### Files -/

mutual

@[grind =] def File.delivered : File cfg → List PlacedToken
  | .complete t => t.delivered
  | .unclosed t _ c branches => t.delivered ++ branches.delivered (holds cfg c.e)

/-- `taken` says that the branch whose body comes first is live. -/
@[grind =] def Unclosed.delivered (taken : Bool) : Unclosed cfg → List PlacedToken
  | .inside f => if taken then f.delivered else []
  | .elseif body _ c branches =>
    if taken then body.delivered else branches.delivered (holds cfg c.e)
  | .else_ body _ f => if taken then body.delivered else f.delivered

end

mutual

@[grind =] def File.evaluated : File cfg → List Expr
  | .complete t => t.evaluated
  | .unclosed t _ c branches => t.evaluated ++ c.e :: branches.evaluated (holds cfg c.e)

@[grind =] def Unclosed.evaluated (taken : Bool) : Unclosed cfg → List Expr
  | .inside f => if taken then f.evaluated else []
  | .elseif body _ c branches =>
    if taken then body.evaluated else c.e :: branches.evaluated (holds cfg c.e)
  | .else_ body _ f => if taken then body.evaluated else f.evaluated

end

mutual

@[grind =] def File.visits (st : List Expr) (ds : List Nat) (live : Bool) : File cfg → List Visit
  | .complete t => t.visits st ds live
  | .unclosed t p c branches =>
    t.visits st ds live ++ ⟨(.sharp "if", p), live, st, ds⟩ ::
      branches.visits (c.e :: st) (1 :: ds) (live && holds cfg c.e) (live && !holds cfg c.e)

@[grind =] def Unclosed.visits (st : List Expr) (ds : List Nat) (taken seeking : Bool) :
    Unclosed cfg → List Visit
  | .inside f => f.visits st ds taken
  | .elseif body p c branches =>
    body.visits st ds taken ++ ⟨(.sharp "elseif", p), taken, st, ds⟩ ::
      branches.visits (c.e :: negateTop st) (deepen ds) (seeking && holds cfg c.e)
        (seeking && !holds cfg c.e)
  | .else_ body p f =>
    body.visits st ds taken ++ ⟨(.sharp "else", p), taken, st, ds⟩ ::
      f.visits (negateTop st) ds seeking

end

mutual

def File.Undisturbed (live : Bool) : File cfg → Prop
  | .complete t => t.Undisturbed live
  | .unclosed t _ c branches =>
    t.Undisturbed live ∧ Evaluates cfg c.e ∧
      branches.Undisturbed (live && holds cfg c.e) (live && !holds cfg c.e)

def Unclosed.Undisturbed (taken seeking : Bool) : Unclosed cfg → Prop
  | .inside f => f.Undisturbed taken
  | .elseif body _ c branches =>
    body.Undisturbed taken ∧ Evaluates cfg c.e ∧
      branches.Undisturbed (seeking && holds cfg c.e) (seeking && !holds cfg c.e)
  | .else_ body _ f => body.Undisturbed taken ∧ f.Undisturbed seeking

end

mutual

/-- The file ends in text that is skipped. -/
@[grind =] def File.endsSkipped : File cfg → Bool
  | .complete _ => false
  | .unclosed _ _ c branches => branches.endsSkipped (holds cfg c.e)

@[grind =] def Unclosed.endsSkipped (taken : Bool) : Unclosed cfg → Bool
  | .inside f => if taken then f.endsSkipped else true
  | .elseif _ _ c branches =>
    if taken then true else branches.endsSkipped (holds cfg c.e)
  | .else_ _ _ f => if taken then true else f.endsSkipped

end

def File.isComplete : File cfg → Bool
  | .complete _ => true
  | .unclosed _ _ _ _ => false

end Haxe.Source.Syntax

/-!
## The current condition

`get_current_condition` is the conjunction of the conditional stack: it is true when all
conditions of the stack hold. `negate` turns a condition around. Along a text the stack
therefore holds exactly where the text is live.
-/

namespace Haxe.Source.Syntax

open Typing (Pos)
open ConditionHandler (negate currentCondition conjoin maybeParent)

variable {F : Type} {cfg : Config F}

/-- The condition has a value, and that is `b` as a truth value. -/
def HasTruth (cfg : Config F) (e : Expr) (b : Bool) : Prop :=
  ∃ v, eval cfg.numbers cfg.definedValue e = .ok v ∧ isTrue cfg.numbers v = b

theorem Evaluates.hasTruth {e : Expr} (evaluates : Evaluates cfg e) :
    HasTruth cfg e (holds cfg e) := by
  obtain ⟨v, value⟩ := evaluates
  exact ⟨v, value, by simp [holds, value]⟩

@[simp] theorem isTrue_tBool (b : Bool) : isTrue cfg.numbers (.tBool b) = b := by
  cases b <;> rfl

theorem hasTruth_parenthesis {e : Expr} {p : Pos} {b : Bool} (truth : HasTruth cfg e b) :
    HasTruth cfg (.eParenthesis e p) b := by
  simpa only [HasTruth, eval] using truth

theorem hasTruth_not {e : Expr} {flag : UnopFlag} {p : Pos} {b : Bool} :
    HasTruth cfg (.eUnop .not flag e p) b ↔ HasTruth cfg e (!b) := by
  simp only [HasTruth, eval, bind, Except.bind, pure, Except.pure]
  cases value : eval cfg.numbers cfg.definedValue e with
  | error msg => simp
  | ok v => simp [Bool.not_eq_eq_eq_not]

theorem hasTruth_and {e1 e2 : Expr} {p : Pos} {b : Bool} :
    HasTruth cfg (.eBinop .opBoolAnd e1 e2 p) b ↔
      (HasTruth cfg e1 false ∧ b = false) ∨ (HasTruth cfg e1 true ∧ HasTruth cfg e2 b) := by
  simp only [HasTruth, eval, bind, Except.bind, pure, Except.pure]
  cases value1 : eval cfg.numbers cfg.definedValue e1 with
  | error msg => simp
  | ok v1 =>
    cases truth1 : isTrue cfg.numbers v1 with
    | false => simp [truth1]
    | true =>
      cases value2 : eval cfg.numbers cfg.definedValue e2 <;> simp [truth1]

theorem hasTruth_or {e1 e2 : Expr} {p : Pos} {b : Bool} :
    HasTruth cfg (.eBinop .opBoolOr e1 e2 p) b ↔
      (HasTruth cfg e1 true ∧ b = true) ∨ (HasTruth cfg e1 false ∧ HasTruth cfg e2 b) := by
  simp only [HasTruth, eval, bind, Except.bind, pure, Except.pure]
  cases value1 : eval cfg.numbers cfg.definedValue e1 with
  | error msg => simp
  | ok v1 =>
    cases truth1 : isTrue cfg.numbers v1 with
    | true => simp [truth1]
    | false =>
      cases value2 : eval cfg.numbers cfg.definedValue e2 <;> simp [truth1]

/-- The negation evaluates what the condition evaluates, by the laws of De Morgan. -/
theorem hasTruth_negate {e : Expr} {b : Bool} (truth : HasTruth cfg e b) :
    HasTruth cfg (negate e) !b := by
  induction e using ConditionHandler.negate.induct generalizing b with
  | case1 flag e1 p => simpa [negate, hasTruth_not] using truth
  | case2 e1 e2 p ih1 ih2 =>
    obtain ⟨truth1, rfl⟩ | ⟨truth1, truth2⟩ := hasTruth_and.1 truth
    · exact hasTruth_or.2 (Or.inl ⟨ih1 truth1, rfl⟩)
    · exact hasTruth_or.2 (Or.inr ⟨ih1 truth1, ih2 truth2⟩)
  | case3 e1 e2 p ih1 ih2 =>
    obtain ⟨truth1, rfl⟩ | ⟨truth1, truth2⟩ := hasTruth_or.1 truth
    · exact hasTruth_and.2 (Or.inl ⟨ih1 truth1, rfl⟩)
    · exact hasTruth_and.2 (Or.inr ⟨ih1 truth1, ih2 truth2⟩)
  | case4 e notNot notAnd notOr =>
    rw [negate]
    · exact hasTruth_not.2 (by simpa using truth)
    · exact notNot
    · exact notAnd
    · exact notOr

theorem hasTruth_maybeParent {allowAnd : Bool} {e : Expr} {b : Bool}
    (truth : HasTruth cfg e b) : HasTruth cfg (maybeParent allowAnd e) b := by
  unfold maybeParent
  split
  · split
    · exact truth
    · exact hasTruth_parenthesis truth
  · exact truth

theorem hasTruth_conjoin {lhs rhs : Expr} {b1 b2 : Bool} (truth1 : HasTruth cfg lhs b1)
    (truth2 : HasTruth cfg rhs b2) : HasTruth cfg (conjoin lhs rhs) (b1 && b2) := by
  refine hasTruth_and.2 ?_
  cases b1 with
  | false => exact Or.inl ⟨hasTruth_maybeParent truth1, rfl⟩
  | true => exact Or.inr ⟨hasTruth_maybeParent truth1, hasTruth_maybeParent truth2⟩

/-- The stack has a truth value: every condition has one, and `b` is their conjunction. -/
def StackHolds (cfg : Config F) : List Expr → Bool → Prop
  | [], b => b = true
  | e :: el, b => ∃ b1 b2, HasTruth cfg e b1 ∧ StackHolds cfg el b2 ∧ b = (b1 && b2)

theorem hasTruth_foldl {acc : Expr} {b : Bool} (truth : HasTruth cfg acc b) :
    ∀ {el : List Expr} {b' : Bool}, StackHolds cfg el b' →
      HasTruth cfg (el.foldl conjoin acc) (b && b')
  | [], _, rfl => by simpa using truth
  | e :: el, _, ⟨b1, b2, truth1, stack, rfl⟩ => by
    simpa [Bool.and_assoc] using hasTruth_foldl (hasTruth_conjoin truth truth1) stack

theorem hasTruth_currentCondition {st : List Expr} {b : Bool} (stack : StackHolds cfg st b) :
    HasTruth cfg (currentCondition st) b := by
  cases st with
  | nil =>
    obtain ⟨s, defined⟩ := Option.isSome_iff_exists.1 cfg.trueDefined
    obtain rfl : b = true := stack
    exact ⟨.tString s, by simp [currentCondition, eval, definedOrNull, defined], rfl⟩
  | cons e el =>
    obtain ⟨b1, b2, truth, stack, rfl⟩ := stack
    exact hasTruth_foldl truth stack

/-! ## Along a text -/

/-- At the visit the current condition is true exactly if the token is live. -/
def Visit.Sound (cfg : Config F) (v : Visit) : Prop :=
  HasTruth cfg (currentCondition v.conditionalStack) v.live

theorem StackHolds.cons {e : Expr} {st : List Expr} {b b' : Bool} (truth : HasTruth cfg e b)
    (stack : StackHolds cfg st b') : StackHolds cfg (e :: st) (b' && b) :=
  ⟨b, b', truth, stack, Bool.and_comm b' b⟩

mutual

theorem Text.visits_sound (t : Text cfg) {st : List Expr} {ds : List Nat} {live : Bool}
    (stack : StackHolds cfg st live) (quiet : t.Undisturbed live) :
    ∀ v ∈ t.visits st ds live, v.Sound cfg := by
  have here := hasTruth_currentCondition stack
  cases t with
  | nil => simp [Text.visits]
  | token tk plain rest =>
    simp only [Text.visits, List.forall_mem_cons]
    exact ⟨here, rest.visits_sound stack quiet.2⟩
  | line p s p2 rest =>
    simp only [Text.visits, List.forall_mem_cons]
    exact ⟨here, here, rest.visits_sound stack quiet.2⟩
  | error p rest =>
    simp only [Text.visits, List.forall_mem_cons]
    exact ⟨here, rest.visits_sound stack quiet.2⟩
  | conditional p c body branches rest =>
    obtain ⟨evaluates, bodyQuiet, branchesQuiet, restQuiet⟩ := quiet
    simp only [Text.visits, List.forall_mem_cons, List.forall_mem_append]
    exact ⟨here, body.visits_sound (stack.cons evaluates.hasTruth) bodyQuiet,
      branches.visits_sound evaluates.hasTruth stack rfl rfl branchesQuiet,
      rest.visits_sound stack restQuiet⟩

/-- `top` is the condition of the branch before, under the conditions `st`. -/
theorem Branches.visits_sound (br : Branches cfg) {top : Expr} {st : List Expr}
    {ds : List Nat} {b b' taken seeking : Bool} (truth : HasTruth cfg top b)
    (stack : StackHolds cfg st b') (takenEq : taken = (b' && b)) (seekingEq : seeking = (b' && !b))
    (quiet : br.Undisturbed seeking) :
    ∀ v ∈ br.visits (top :: st) ds taken seeking, v.Sound cfg := by
  subst takenEq seekingEq
  have here := hasTruth_currentCondition (stack.cons truth)
  have negated := stack.cons (hasTruth_negate truth)
  cases br with
  | endif p =>
    simp only [Branches.visits, List.forall_mem_singleton]
    exact here
  | elseif p c body branches =>
    obtain ⟨evaluates, bodyQuiet, branchesQuiet⟩ := quiet
    simp only [Branches.visits, List.forall_mem_cons, List.forall_mem_append]
    exact ⟨here, body.visits_sound (negated.cons evaluates.hasTruth) bodyQuiet,
      branches.visits_sound evaluates.hasTruth negated rfl rfl branchesQuiet⟩
  | else_ p body p2 =>
    have ended := hasTruth_currentCondition negated
    simp only [Branches.visits, List.forall_mem_cons, List.forall_mem_append]
    exact ⟨here, body.visits_sound negated quiet, ended, by simp⟩

end

mutual

theorem File.visits_sound (f : File cfg) {st : List Expr} {ds : List Nat} {live : Bool}
    (stack : StackHolds cfg st live) (quiet : f.Undisturbed live) :
    ∀ v ∈ f.visits st ds live, v.Sound cfg := by
  cases f with
  | complete t => exact t.visits_sound stack quiet
  | unclosed t p c branches =>
    obtain ⟨textQuiet, evaluates, branchesQuiet⟩ := quiet
    simp only [File.visits, List.forall_mem_cons, List.forall_mem_append]
    exact ⟨t.visits_sound stack textQuiet, hasTruth_currentCondition stack,
      branches.visits_sound evaluates.hasTruth stack rfl rfl branchesQuiet⟩

theorem Unclosed.visits_sound (u : Unclosed cfg) {top : Expr} {st : List Expr}
    {ds : List Nat} {b b' taken seeking : Bool} (truth : HasTruth cfg top b)
    (stack : StackHolds cfg st b') (takenEq : taken = (b' && b)) (seekingEq : seeking = (b' && !b))
    (quiet : u.Undisturbed taken seeking) :
    ∀ v ∈ u.visits (top :: st) ds taken seeking, v.Sound cfg := by
  subst takenEq seekingEq
  have around := stack.cons truth
  have negated := stack.cons (hasTruth_negate truth)
  cases u with
  | inside f => exact f.visits_sound around quiet
  | elseif body p c branches =>
    obtain ⟨bodyQuiet, evaluates, branchesQuiet⟩ := quiet
    simp only [Unclosed.visits, List.forall_mem_cons, List.forall_mem_append]
    exact ⟨body.visits_sound around bodyQuiet, hasTruth_currentCondition around,
      branches.visits_sound evaluates.hasTruth negated rfl rfl branchesQuiet⟩
  | else_ body p f =>
    simp only [Unclosed.visits, List.forall_mem_cons, List.forall_mem_append]
    exact ⟨body.visits_sound around quiet.1, hasTruth_currentCondition around,
      f.visits_sound negated quiet.2⟩

end

end Haxe.Source.Syntax
