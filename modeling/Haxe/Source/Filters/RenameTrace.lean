import Haxe.Source.Filters.RenameVars
import Haxe.Theory.ScopeTrace

/-!
# The trace of an expression

Everything in an expression that may be a scope is one in its trace, with its kind. With
block scoping and without hoisting `collect_vars` opens scopes for some of the kinds and
does, at each declaration and reference, what `collectTrace` does.
-/

namespace Haxe.Source.Filters.RenameVars

open Core Context
open Haxe.Theory

inductive ScopeKind where
  | function
  | block
  /-- A block directly in a block, a function or a catch. -/
  | nested
  | caseBody
  | catchBody
  /-- The variable and the body of a `for`. -/
  | loopBody
  deriving DecidableEq, Repr

/-- Declarations and references in the order of the traversal; `k` is the kind of the
expression if it is a block. -/
@[grind =] def trace (k : ScopeKind) (e : TExpr) : Trace TVar ScopeKind :=
  match e with
  | .tVar v eOpt =>
    let value := match eOpt with
      | none => .done
      | some e => trace .block e
    if isFunction eOpt then .declare v value else value.append (.declare v .done)
  | .tLocal v => .use v .done
  | .tFunction tfArgs _ tfExpr =>
    let args := tfArgs.map Prod.fst
    .scope .function (args.foldr .declare (args.foldr .use (trace .nested tfExpr))) .done
  | .tTry tryExpr catches =>
    (trace .block tryExpr).append (.concat (catches.attach.map fun c =>
      .scope .catchBody (.declare c.1.1 (trace .nested c.1.2)) .done))
  | .tSwitch target cases default =>
    (trace .block target).append <|
      (Trace.concat (cases.attach.map fun c =>
        (Trace.concat (c.1.1.attach.map fun e => trace .block e.1)).append
          (trace .caseBody c.1.2))).append <|
      match default with
      | none => .done
      | some e => trace .caseBody e
  | .tBlock exprs => .scope k (.concat (exprs.attach.map fun e => trace .nested e.1)) .done
  | .tWhile condition body flag =>
    .loop (match flag with
      | .normalWhile => (trace .block condition).append (trace .block body)
      | .doWhile => (trace .block body).append (trace .block condition)) .done
  | .tFor v iterator body =>
    .loop ((trace .block iterator).append
      (.scope .loopBody (.declare v (trace .block body)) .done)) .done
  | e => .concat (e.children.attach.map fun e => trace .block e.1)
termination_by sizeOf e
decreasing_by
  all_goals first
    | exact TExpr.sizeOf_children e.2
    | exact TExpr.sizeOf_pattern c.2 e.2
    | exact TExpr.sizeOf_caseBody c.2
    | exact TExpr.sizeOf_catch c.2
    | (refine TExpr.sizeOf_children ?_
       simp [TExpr.children])

variable (rc : RenameContext)

/-- The kinds for which `collect_vars` creates a scope. -/
@[grind =] def opens : ScopeKind → Bool
  | .function | .block | .catchBody => true
  | .nested | .loopBody => false
  | .caseBody => !rc.rcSwitchCasesNoBlocks

@[grind =] def collectTrace : Trace TVar ScopeKind → Stack → Option Stack
  | .done, stack => some stack
  | .declare v rest, stack => collectTrace rest (declareVar rc v stack)
  | .use v rest, stack => useVar rc v stack >>= collectTrace rest
  | .scope k body rest, stack =>
    (if opens rc k then inScope (collectTrace body) stack else collectTrace body stack) >>=
      collectTrace rest
  | .loop body rest, stack => collectLoop (collectTrace body) stack >>= collectTrace rest

theorem collectTrace_append (t t' : Trace TVar ScopeKind) (stack : Stack) :
    collectTrace rc (t.append t') stack = collectTrace rc t stack >>= collectTrace rc t' := by
  induction t generalizing stack with
  | done => rfl
  | declare v rest ih => exact ih _
  | use v rest ih =>
    simp only [Trace.append, collectTrace, bind_assoc]
    exact congrArg _ (funext ih)
  | scope k body rest ihBody ih =>
    simp only [Trace.append, collectTrace, bind_assoc]
    exact congrArg _ (funext ih)
  | loop body rest ihBody ih =>
    simp only [Trace.append, collectTrace, bind_assoc]
    exact congrArg _ (funext ih)

theorem collectTrace_concat {α : Type} (l : List α) (f : α → Trace TVar ScopeKind)
    (stack : Stack) :
    collectTrace rc (.concat (l.map f)) stack =
      l.foldlM (fun stack a => collectTrace rc (f a) stack) stack := by
  induction l generalizing stack with
  | nil => rfl
  | cons a l ih =>
    rw [List.map_cons, Trace.concat, collectTrace_append, List.foldlM_cons]
    exact congrArg _ (funext ih)

theorem collectTrace_scope (k : ScopeKind) (body : Trace TVar ScopeKind) (stack : Stack) :
    collectTrace rc (.scope k body .done) stack =
      if opens rc k then inScope (collectTrace rc body) stack else collectTrace rc body stack :=
  bind_pure _

theorem collectTrace_loop (body : Trace TVar ScopeKind) (stack : Stack) :
    collectTrace rc (.loop body .done) stack = collectLoop (collectTrace rc body) stack :=
  bind_pure _

theorem trace_eq {e : TExpr} (h : ∀ exprs, e ≠ .tBlock exprs) (k k' : ScopeKind) :
    trace k e = trace k' e := by
  cases e with
  | tBlock exprs => exact absurd rfl (h exprs)
  | _ => unfold trace; rfl

/-- Where no scope is opened, a block is its elements. -/
theorem collectTrace_blockElements {k : ScopeKind} (closed : opens rc k = false) (e : TExpr)
    (stack : Stack) :
    collectTrace rc (trace k e) stack =
      (blockElements e).foldlM (fun stack e => collectTrace rc (trace .nested e) stack) stack := by
  by_cases block : ∃ exprs, e = .tBlock exprs
  · obtain ⟨exprs, rfl⟩ := block
    have elements : collectTrace rc (trace k (.tBlock exprs)) stack =
        collectTrace rc (.concat (exprs.attach.map fun e => trace .nested e.1)) stack := by
      conv_lhs => unfold trace
      simp [collectTrace, closed]
    rw [elements, collectTrace_concat]
    exact (List.foldlM_subtype (g := fun stack e => collectTrace rc (trace .nested e) stack)
      fun _ _ _ => rfl).trans (by rw [List.unattach_attach]; rfl)
  · have notBlock : ∀ exprs, e ≠ .tBlock exprs := fun exprs same => block ⟨exprs, same⟩
    have single : blockElements e = [e] := by
      unfold blockElements
      split
      · exact absurd rfl (notBlock _)
      · rfl
    rw [single, trace_eq notBlock k .nested]
    simp

theorem bind_eq_bind {x y : Option Stack} {f g : Stack → Option Stack} (same : x = y)
    (next : ∀ stack, f stack = g stack) : x >>= f = y >>= g := by
  subst same
  exact bind_congr next

theorem foldlM_attach {α : Type} {l : List α} {f : Stack → {a // a ∈ l} → Option Stack}
    {g : Stack → α → Option Stack} (same : ∀ stack a (h : a ∈ l), f stack ⟨a, h⟩ = g stack a)
    (stack : Stack) : l.attach.foldlM f stack = l.foldlM g stack := by
  rw [List.foldlM_subtype (g := g) same, List.unattach_attach]

theorem concat_attach {α : Type} (l : List α) (f : α → Trace TVar ScopeKind) :
    Trace.concat (l.attach.map fun a => f a.1) = Trace.concat (l.map f) := by
  rw [List.map_attach_eq_pmap, List.pmap_eq_map]

/-- Block scoping: the domain of the guarantees. -/
structure BlockScoped (rc : RenameContext) : Prop where
  scope : rc.rcScope = .blockScope
  hoisting : rc.rcHoisting = false
  catches : rc.rcNoCatchVarShadowing = false

/-- The kind of the block that `collect_vars` is at. -/
@[grind =] def blockKind (inBlock : Bool) : ScopeKind := if inBlock then .nested else .block

theorem collectTrace_declares (vars : List TVar) (t : Trace TVar ScopeKind) (stack : Stack) :
    collectTrace rc (vars.foldr .declare t) stack =
      collectTrace rc t (vars.foldl (fun stack v => declareVar rc v stack) stack) := by
  induction vars generalizing stack with
  | nil => rfl
  | cons v vars ih => exact ih _

theorem collectTrace_uses (vars : List TVar) (t : Trace TVar ScopeKind) (stack : Stack) :
    collectTrace rc (vars.foldr .use t) stack =
      vars.foldlM (fun stack v => useVar rc v stack) stack >>= collectTrace rc t := by
  induction vars generalizing stack with
  | nil => rfl
  | cons v vars ih =>
    rw [List.foldr_cons, collectTrace, List.foldlM_cons, bind_assoc]
    exact congrArg _ (funext ih)

/-- `collect_vars` follows the trace of `e`, and of its elements if it is a block. -/
structure Follows (rc : RenameContext) (e : TExpr) : Prop where
  whole : ∀ inBlock stack, collectVars rc inBlock e stack =
    collectTrace rc (trace (blockKind inBlock) e) stack
  elements : ∀ e' ∈ blockElements e, ∀ stack, collectVars rc true e' stack =
    collectTrace rc (trace .nested e') stack

theorem Follows.blockElements {rc : RenameContext} {e : TExpr} (h : Follows rc e) {k : ScopeKind}
    (closed : opens rc k = false) (stack : Stack) :
    (blockElements e).attach.foldlM (fun stack e => collectVars rc true e.1 stack) stack =
      collectTrace rc (trace k e) stack := by
  rw [collectTrace_blockElements rc closed]
  exact foldlM_attach (fun stack e' member => h.elements e' member stack) stack

/-- A block that is not directly in a block opens a scope. -/
theorem Follows.caseBody {rc : RenameContext} {e : TExpr} (h : Follows rc e)
    (cases' : rc.rcSwitchCasesNoBlocks = false) (stack : Stack) :
    collectVars rc false e stack = collectTrace rc (trace .caseBody e) stack := by
  rw [h.whole false stack]
  by_cases block : ∃ exprs, e = .tBlock exprs
  · obtain ⟨exprs, rfl⟩ := block
    unfold trace
    simp [collectTrace, opens, blockKind, cases']
  · rw [trace_eq (fun exprs same => block ⟨exprs, same⟩) (blockKind false) .caseBody]

theorem collectVars_step {rc : RenameContext} (h : BlockScoped rc) {e : TExpr}
    (child : ∀ e' ∈ e.children, Follows rc e') (inBlock : Bool) (stack : Stack) :
    collectVars rc inBlock e stack = collectTrace rc (trace (blockKind inBlock) e) stack := by
  have plain (e' : TExpr) (member : e' ∈ e.children) (stack : Stack) :
      collectVars rc false e' stack = collectTrace rc (trace .block e') stack :=
    (child e' member).whole false stack
  cases e
  case tConst | tArray | tBinop | tField | tTypeExpr | tParenthesis | tObjectDecl | tArrayDecl
      | tCall | tNew | tUnop | tIf | tReturn | tBreak | tContinue | tThrow | tCast | tMeta
      | tEnumParameter | tEnumIndex | tIdent =>
    unfold collectVars trace
    rw [concat_attach, collectTrace_concat]
    exact foldlM_attach (fun stack e' member => plain e' member stack) stack
  case tLocal v =>
    unfold collectVars trace
    simp [collectTrace]
  case tVar v eOpt =>
    unfold collectVars trace
    cases eOpt with
    | none => simp [h.hoisting, isFunction, collectTrace, Trace.append]
    | some e =>
      have value := plain e (by simp [TExpr.children])
      cases function : isFunction (some e) with
      | true => simp [h.hoisting, collectTrace, value]
      | false =>
        simp only [h.hoisting, Bool.or_self, Bool.false_eq_true, if_false, value,
          collectTrace_append]
        rfl
  case tFunction tfArgs tfType tfExpr =>
    have body := (child tfExpr (by simp [TExpr.children])).blockElements (k := .nested) rfl
    unfold collectVars trace
    rw [collectTrace_scope]
    refine congrArg (inScope · stack) (funext fun stack => ?_)
    rw [collectTrace_declares, collectTrace_uses, List.foldl_map, List.foldlM_map]
    exact bind_congr body
  case tTry tryExpr catches =>
    unfold collectVars trace
    rw [collectTrace_append, plain tryExpr (by simp [TExpr.children])]
    refine congrArg _ (funext fun stack => ?_)
    rw [concat_attach catches fun c => .scope .catchBody (.declare c.1 (trace .nested c.2)) .done,
      collectTrace_concat]
    refine foldlM_attach (fun stack c member => ?_) stack
    have body := (child c.2 (List.mem_cons_of_mem _ (List.mem_map_of_mem member))).blockElements
      (k := .nested) rfl
    rw [collectTrace_scope]
    simp only [inBlockScope, h.scope, h.catches, opens, if_true, body]
    simp [collectTrace]
  case tBlock exprs =>
    have elements : (fun stack => exprs.attach.foldlM (fun stack e =>
        collectVars rc true e.1 stack) stack) =
        collectTrace rc (.concat (exprs.map (trace .nested))) := by
      funext stack
      rw [collectTrace_concat]
      exact foldlM_attach (fun stack e' member => (child e' member).whole true stack) stack
    unfold collectVars trace
    rw [elements, collectTrace_scope, concat_attach]
    cases inBlock <;> simp [inBlockScope, blockKind, opens, h.scope]
  case tWhile condition body flag =>
    unfold collectVars trace
    rw [collectTrace_loop]
    refine congrArg (collectLoop · stack) (funext fun stack => ?_)
    have condition' := plain condition (by simp [TExpr.children])
    have body' := plain body (by simp [TExpr.children])
    cases flag with
    | normalWhile =>
      simp only [collectTrace_append, condition']
      exact congrArg _ (funext body')
    | doWhile =>
      simp only [collectTrace_append, body']
      exact congrArg _ (funext condition')
  case tFor v iterator body =>
    unfold collectVars trace
    rw [collectTrace_loop]
    refine congrArg (collectLoop · stack) (funext fun stack => ?_)
    have body' := plain body (by simp [TExpr.children])
    simp only [h.hoisting, Bool.false_eq_true, if_false, collectTrace_append,
      plain iterator (by simp [TExpr.children])]
    refine congrArg _ (funext fun stack => ?_)
    rw [collectTrace_scope]
    exact body' _
  case tSwitch target cases default =>
    have target' := plain target (by simp [TExpr.children])
    have pattern {c : List TExpr × TExpr} (member : c ∈ cases) (stack : Stack) :
        c.1.attach.foldlM (fun stack e => collectVars rc false e.1 stack) stack =
          collectTrace rc (.concat (c.1.map (trace .block))) stack := by
      rw [collectTrace_concat]
      refine foldlM_attach (fun stack e' inside => plain e' ?_ stack) stack
      simp only [TExpr.children, List.cons_append, List.mem_cons, List.mem_append,
        List.mem_flatMap]
      exact Or.inr (Or.inl ⟨c, member, Or.inl inside⟩)
    have body {c : List TExpr × TExpr} (member : c ∈ cases) : Follows rc c.2 := by
      refine child c.2 ?_
      simp only [TExpr.children, List.cons_append, List.mem_cons, List.mem_append,
        List.mem_flatMap]
      exact Or.inr (Or.inl ⟨c, member, Or.inr (Or.inl rfl)⟩)
    have last {e : TExpr} (same : default = some e) : Follows rc e :=
      child e (by simp [TExpr.children, same])
    unfold collectVars trace
    simp only [concat_attach, collectTrace_append, target']
    cases flag : rc.rcSwitchCasesNoBlocks with
    | true =>
      have closed : opens rc .caseBody = false := by simp [opens, flag]
      refine bind_congr fun stack => ?_
      rw [collectTrace_append, collectTrace_concat]
      refine bind_eq_bind ?_ fun stack => ?_
      · congr 1
        funext stack c
        obtain ⟨c, member⟩ := c
        rw [collectTrace_append]
        exact bind_eq_bind (pattern member stack) ((body member).blockElements closed)
      · cases default with
        | none => rfl
        | some e => exact (last rfl).blockElements closed stack
    | false =>
      refine bind_congr fun stack => ?_
      rw [collectTrace_append, collectTrace_concat]
      refine bind_eq_bind ?_ fun stack => ?_
      · congr 1
        funext stack c
        obtain ⟨c, member⟩ := c
        rw [collectTrace_append]
        exact bind_eq_bind (pattern member stack) ((body member).caseBody flag)
      · cases default with
        | none => rfl
        | some e => exact (last rfl).caseBody flag stack

theorem collectVars_eq {rc : RenameContext} (h : BlockScoped rc) (e : TExpr) : Follows rc e := by
  induction e using TExpr.childInduction with
  | step e ih =>
    refine ⟨collectVars_step h ih, fun e' member stack => ?_⟩
    unfold RenameVars.blockElements at member
    split at member
    · exact (ih e' member).whole true stack
    · obtain rfl := List.mem_singleton.mp member
      exact collectVars_step h ih true stack

end Haxe.Source.Filters.RenameVars
