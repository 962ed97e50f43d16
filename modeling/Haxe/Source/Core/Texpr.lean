import Haxe.Source.Core.TType

/-!
# Traversal of typed expressions

`children` lists the subexpressions that `Type.iter` of `core/texpr.ml` visits, in its
order. Recursive passes use it for the constructors they do not single out.
-/

namespace Haxe.Source.Core

namespace TExpr

/-- What `Type.iter` applies its function to. -/
@[grind =] def children : TExpr → List TExpr
  | tConst _ | tLocal _ | tBreak | tContinue | tTypeExpr _ | tIdent _ => []
  | tArray e1 e2 | tBinop _ e1 e2 | tFor _ e1 e2 | tWhile e1 e2 _ => [e1, e2]
  | tThrow e | tField e _ | tEnumParameter e _ _ | tEnumIndex e | tParenthesis e | tCast e _
  | tUnop _ _ e | tMeta _ e => [e]
  | tArrayDecl el | tNew _ el | tBlock el => el
  | tObjectDecl fl => fl.map Prod.snd
  | tCall e el => e :: el
  | tVar _ eo => eo.toList
  | tFunction _ _ e => [e]
  | tIf e e1 e2 => e :: e1 :: e2.toList
  | tSwitch e cases default => e :: cases.flatMap (fun c => c.1 ++ [c.2]) ++ default.toList
  | tTry e catches => e :: catches.map Prod.snd
  | tReturn eo => eo.toList

/-- `Subexpr s e`: the expression `s` occurs in `e`. -/
inductive Subexpr (s : TExpr) : TExpr → Prop where
  | here : Subexpr s s
  | child {e e' : TExpr} (member : e' ∈ e.children) (sub : Subexpr s e') : Subexpr s e

theorem subexpr_cases {s e : TExpr} (h : Subexpr s e) :
    s = e ∨ ∃ e' ∈ e.children, Subexpr s e' := by
  cases h with
  | here => exact Or.inl rfl
  | child member sub => exact Or.inr ⟨_, member, sub⟩

private theorem sizeOf_mem_snd {α : Type} [SizeOf α] {l : List (α × TExpr)} {e : TExpr}
    (h : e ∈ l.map Prod.snd) : sizeOf e < sizeOf l := by
  obtain ⟨⟨a, e'⟩, member, rfl⟩ := List.mem_map.mp h
  have := List.sizeOf_lt_of_mem member
  simp only [Prod.mk.sizeOf_spec] at this
  show sizeOf e' < _
  omega

private theorem sizeOf_mem_toList {eo : Option TExpr} {e : TExpr} (h : e ∈ eo.toList) :
    sizeOf e < sizeOf eo := by
  cases eo with
  | none => simp at h
  | some e' =>
    obtain rfl : e = e' := by simpa using h
    simp

private theorem sizeOf_mem_cases {cases : List (List TExpr × TExpr)} {e : TExpr}
    (h : e ∈ cases.flatMap fun c => c.1 ++ [c.2]) : sizeOf e < sizeOf cases := by
  obtain ⟨⟨el, body⟩, member, inside⟩ := List.mem_flatMap.mp h
  have caseSize := List.sizeOf_lt_of_mem member
  simp only [Prod.mk.sizeOf_spec] at caseSize
  rcases List.mem_append.mp inside with inside | inside
  · have := List.sizeOf_lt_of_mem (show e ∈ el from inside)
    omega
  · obtain rfl : e = body := by simpa using inside
    omega

theorem sizeOf_children {e e' : TExpr} (h : e' ∈ e.children) : sizeOf e' < sizeOf e := by
  cases e <;> simp only [children, List.mem_cons, List.not_mem_nil, or_false, List.cons_append,
    List.mem_append] at h
  case tArrayDecl el | tBlock el | tNew c el =>
    have := List.sizeOf_lt_of_mem h
    simp only [tArrayDecl.sizeOf_spec, tBlock.sizeOf_spec, tNew.sizeOf_spec]
    omega
  case tObjectDecl fl =>
    have := sizeOf_mem_snd h
    simp only [tObjectDecl.sizeOf_spec]
    omega
  case tVar v eo | tReturn eo =>
    have := sizeOf_mem_toList h
    simp only [tVar.sizeOf_spec, tReturn.sizeOf_spec]
    omega
  case tCall e el =>
    simp only [tCall.sizeOf_spec]
    rcases h with rfl | h
    · omega
    · have := List.sizeOf_lt_of_mem h
      omega
  case tIf e e1 e2 =>
    simp only [tIf.sizeOf_spec]
    rcases h with rfl | rfl | h
    · omega
    · omega
    · have := sizeOf_mem_toList h
      omega
  case tSwitch e cases default =>
    simp only [tSwitch.sizeOf_spec]
    rcases h with rfl | h | h
    · omega
    · have := sizeOf_mem_cases h
      omega
    · have := sizeOf_mem_toList h
      omega
  case tTry e catches =>
    simp only [tTry.sizeOf_spec]
    rcases h with rfl | h
    · omega
    · have := sizeOf_mem_snd h
      omega
  all_goals
    simp only [tArray.sizeOf_spec, tBinop.sizeOf_spec, tFor.sizeOf_spec, tWhile.sizeOf_spec,
      tThrow.sizeOf_spec, tField.sizeOf_spec, tEnumParameter.sizeOf_spec, tEnumIndex.sizeOf_spec,
      tParenthesis.sizeOf_spec, tCast.sizeOf_spec, tUnop.sizeOf_spec, tMeta.sizeOf_spec,
      tFunction.sizeOf_spec]
    rcases h with rfl | rfl <;> omega

theorem mem_pattern {target e : TExpr} {cases : List (List TExpr × TExpr)}
    {default : Option TExpr} {c : List TExpr × TExpr} (member : c ∈ cases) (pattern : e ∈ c.1) :
    e ∈ (tSwitch target cases default).children := by
  simp only [children, List.cons_append, List.mem_cons, List.mem_append, List.mem_flatMap]
  exact Or.inr (Or.inl ⟨c, member, Or.inl pattern⟩)

theorem mem_caseBody {target : TExpr} {cases : List (List TExpr × TExpr)}
    {default : Option TExpr} {c : List TExpr × TExpr} (member : c ∈ cases) :
    c.2 ∈ (tSwitch target cases default).children := by
  simp only [children, List.cons_append, List.mem_cons, List.mem_append, List.mem_flatMap]
  exact Or.inr (Or.inl ⟨c, member, Or.inr (Or.inl rfl)⟩)

theorem mem_catch {e : TExpr} {catches : List (TVar × TExpr)} {c : TVar × TExpr}
    (member : c ∈ catches) : c.2 ∈ (tTry e catches).children :=
  List.mem_cons_of_mem _ (List.mem_map_of_mem member)

/-- `Type.map_expr`, for a function that may fail. -/
@[grind =] def mapExpr {m : Type → Type} [Monad m] :
    (e : TExpr) → ((e' : TExpr) → e' ∈ e.children → m TExpr) → m TExpr
  | tArray e1 e2, f => do
    let e1' ← f e1 (by simp [children])
    return tArray e1' (← f e2 (by simp [children]))
  | tBinop op e1 e2, f => do
    let e1' ← f e1 (by simp [children])
    return tBinop op e1' (← f e2 (by simp [children]))
  | tFor v e1 e2, f => do
    let e1' ← f e1 (by simp [children])
    return tFor v e1' (← f e2 (by simp [children]))
  | tWhile e1 e2 flag, f => do
    let e1' ← f e1 (by simp [children])
    return tWhile e1' (← f e2 (by simp [children])) flag
  | tThrow e1, f => return tThrow (← f e1 (by simp [children]))
  | tEnumParameter e1 ef i, f => return tEnumParameter (← f e1 (by simp [children])) ef i
  | tEnumIndex e1, f => return tEnumIndex (← f e1 (by simp [children]))
  | tField e1 v, f => return tField (← f e1 (by simp [children])) v
  | tParenthesis e1, f => return tParenthesis (← f e1 (by simp [children]))
  | tUnop op pre e1, f => return tUnop op pre (← f e1 (by simp [children]))
  | tArrayDecl el, f => return tArrayDecl (← el.attach.mapM fun e => f e.1 e.2)
  | tNew c el, f => return tNew c (← el.attach.mapM fun e => f e.1 e.2)
  | tBlock el, f => return tBlock (← el.attach.mapM fun e => f e.1 e.2)
  | tObjectDecl el, f =>
    return tObjectDecl (← el.attach.mapM fun e =>
      return (e.1.1, ← f e.1.2 (List.mem_map_of_mem e.2)))
  | tCall e1 el, f => do
    let e1' ← f e1 (by simp [children])
    return tCall e1' (← el.attach.mapM fun e => f e.1 (List.mem_cons_of_mem _ e.2))
  | tVar v none, _ => return tVar v none
  | tVar v (some e), f => return tVar v (some (← f e (by simp [children])))
  | tFunction tfArgs tfType tfExpr, f =>
    return tFunction tfArgs tfType (← f tfExpr (by simp [children]))
  | tIf ec e1 none, f => do
    let ec' ← f ec (by simp [children])
    return tIf ec' (← f e1 (by simp [children])) none
  | tIf ec e1 (some e2), f => do
    let ec' ← f ec (by simp [children])
    let e1' ← f e1 (by simp [children])
    return tIf ec' e1' (some (← f e2 (by simp [children])))
  | tSwitch e1 cases none, f => do
    let e1' ← f e1 (by simp [children])
    let cases' ← cases.attach.mapM fun c => do
      let el ← c.1.1.attach.mapM fun e => f e.1 (mem_pattern c.2 e.2)
      return (el, ← f c.1.2 (mem_caseBody c.2))
    return tSwitch e1' cases' none
  | tSwitch e1 cases (some e), f => do
    let e1' ← f e1 (by simp [children])
    let cases' ← cases.attach.mapM fun c => do
      let el ← c.1.1.attach.mapM fun e => f e.1 (mem_pattern c.2 e.2)
      return (el, ← f c.1.2 (mem_caseBody c.2))
    return tSwitch e1' cases' (some (← f e (by simp [children])))
  | tTry e1 catches, f => do
    let e1' ← f e1 (by simp [children])
    return tTry e1' (← catches.attach.mapM fun c =>
      return (c.1.1, ← f c.1.2 (mem_catch c.2)))
  | tReturn none, _ => return tReturn none
  | tReturn (some e), f => return tReturn (some (← f e (by simp [children])))
  | tCast e1 t, f => return tCast (← f e1 (by simp [children])) t
  | tMeta m e1, f => return tMeta m (← f e1 (by simp [children]))
  | e, _ => return e

theorem sizeOf_pattern {target e : TExpr} {cases : List (List TExpr × TExpr)}
    {default : Option TExpr} {c : List TExpr × TExpr} (member : c ∈ cases) (pattern : e ∈ c.1) :
    sizeOf e < sizeOf (tSwitch target cases default) :=
  sizeOf_children (mem_pattern member pattern)

theorem sizeOf_caseBody {target : TExpr} {cases : List (List TExpr × TExpr)}
    {default : Option TExpr} {c : List TExpr × TExpr} (member : c ∈ cases) :
    sizeOf c.2 < sizeOf (tSwitch target cases default) :=
  sizeOf_children (mem_caseBody member)

theorem sizeOf_catch {e : TExpr} {catches : List (TVar × TExpr)} {c : TVar × TExpr}
    (member : c ∈ catches) : sizeOf c.2 < sizeOf (tTry e catches) :=
  sizeOf_children (mem_catch member)

/-- Induction over the subexpressions that `Type.iter` visits. -/
theorem childInduction {motive : TExpr → Prop}
    (step : ∀ e, (∀ e' ∈ e.children, motive e') → motive e) (e : TExpr) : motive e :=
  step e fun e' _ => childInduction step e'
termination_by sizeOf e
decreasing_by exact sizeOf_children ‹_›

end TExpr

end Haxe.Source.Core
