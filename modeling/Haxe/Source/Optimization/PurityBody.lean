import Mathlib.Tactic.Set
import Haxe.Source.Optimization.PurityTaint

/-!
# The body of a field

What the traversal of a body establishes when it comes to its end: every expression it saw
is allowed in a pure function, given that the fields it calls stay pure, and each of those
whose purity is still open has the caller among its dependents.
-/

namespace Haxe.Source.Optimization.Purity

open Typing (Pos)
open Core Context
open Syntax (Binop Unop UnopFlag)
open Haxe.Theory

/-- An expression that is marked `@:pure`, and not `@:pure(false)`. -/
def isTrusted : TExpr → Bool
  | .tMeta m _ => m.name = .pure && match getPurityFromMeta [m] with
    | .ok .impure => false
    | _ => true
  | _ => false

/-- `Visible s e`: the expression `s` occurs in `e` outside of what is marked `@:pure`. -/
inductive Visible (s : TExpr) : TExpr → Prop where
  | here : Visible s s
  | child {e e' : TExpr} (member : e' ∈ e.children) (untrusted : isTrusted e = false)
      (sub : Visible s e') : Visible s e

/-- The targets a pure function may write to. -/
def WriteAllowed (isCtor : Bool) : TExpr → Prop
  | .tLocal v => hasReferenceSemantics v.vType = false
  | .tField (.tConst .tThis) _ => isCtor
  | _ => False

/-- The calls a pure function may make, when `callee` says which fields it may call. -/
def CallAllowed (types : List TClass) (c : TClass) (callee : FieldId → Prop) (el : List TExpr) :
    TExpr → Prop
  | .tField _ (.fStatic path name) =>
    ∃ f, findStatic types path name = some f ∧ callee (getFieldId f.1 f.2)
  | .tConst .tSuper => ∃ f, findConstructor c.clSuper = some f ∧ callee (getFieldId f.1 f.2)
  | .tIdent s => isUnboundCallThatMightHaveSideEffects s el = false
  | _ => False

/-- What a pure function may do at one expression. -/
def Allowed (types : List TClass) (isCtor : Bool) (c : TClass) (callee : FieldId → Prop) :
    TExpr → Prop
  | .tThrow _ => False
  | .tBinop op e1 _ => FieldCheck.isAssign op → WriteAllowed isCtor e1
  | .tUnop op _ e1 => op = .increment ∨ op = .decrement → WriteAllowed isCtor e1
  | .tNew path _ =>
    ∃ f, findConstructor (findClass types path) = some f ∧ callee (getFieldId f.1 f.2)
  | .tCall e el => CallAllowed types c callee el e
  | _ => True

theorem Allowed.mono {types : List TClass} {isCtor : Bool} {c : TClass}
    {callee callee' : FieldId → Prop} {e : TExpr} (h : Allowed types isCtor c callee e)
    (imp : ∀ id, callee id → callee' id) : Allowed types isCtor c callee' e := by
  unfold Allowed at h ⊢
  split at h
  · exact h
  · exact h
  · exact h
  · obtain ⟨f, found, ok⟩ := h
    exact ⟨f, found, imp _ ok⟩
  · unfold CallAllowed at h ⊢
    split at h
    · obtain ⟨f, found, ok⟩ := h
      exact ⟨f, found, imp _ ok⟩
    · obtain ⟨f, found, ok⟩ := h
      exact ⟨f, found, imp _ ok⟩
    · exact h
    · exact h.elim
  · trivial

/-- A later table: nodes are kept, and their dependents only grow. -/
def Grows (lut lut' : NodeLut) : Prop :=
  ∀ id n, lut id = some n → ∃ n', lut' id = some n' ∧ n'.pnClass = n.pnClass ∧
    n'.pnField = n.pnField ∧ n.pnDependents ⊆ n'.pnDependents ∧ Later n.pnPurity n'.pnPurity

theorem Grows.refl (lut : NodeLut) : Grows lut lut :=
  fun _ n found => ⟨n, found, rfl, rfl, fun _ h => h, Later.refl _⟩

theorem Grows.trans {lut lut' lut'' : NodeLut} (h : Grows lut lut') (h' : Grows lut' lut'') :
    Grows lut lut'' := by
  intro id n found
  obtain ⟨n', found', class', field', dependents', purity'⟩ := h id n found
  obtain ⟨n'', found'', class'', field'', dependents'', purity''⟩ := h' id n' found'
  exact ⟨n'', found'', class''.trans class', field''.trans field',
    fun d member => dependents'' (dependents' member), purity'.trans purity''⟩

theorem Taints.grows {lut lut' : NodeLut} (h : Taints lut lut') : Grows lut lut' := by
  intro id n found
  obtain ⟨n', found', same⟩ := h.kept id n found
  exact ⟨n', found', same.pnClass, same.pnField, same.pnDependents ▸ fun _ h => h, same.pnPurity⟩

theorem declared_congr {n n' : PurityNode} (sameClass : n'.pnClass = n.pnClass)
    (sameField : n'.pnField = n.pnField) : n'.declared = n.declared := by
  unfold PurityNode.declared
  rw [sameClass, sameField]

/-- The caller will be tainted if the callee is, unless the callee was declared pure. -/
def Recorded (lut : NodeLut) (caller callee : FieldId) : Prop :=
  ∃ n, lut callee = some n ∧ (n.declared = .ok .pure ∨ (∃ p, n.declared = .ok (.expectPure p)) ∨
    caller ∈ n.pnDependents)

theorem Recorded.later {lut lut' : NodeLut} {caller callee : FieldId}
    (h : Recorded lut caller callee) (grows : Grows lut lut') : Recorded lut' caller callee := by
  obtain ⟨n, found, reason⟩ := h
  obtain ⟨n', found', sameClass, sameField, dependents, -⟩ := grows callee n found
  refine ⟨n', found', ?_⟩
  rw [declared_congr sameClass sameField]
  exact reason.imp_right (Or.imp_right (dependents ·))

/-- All impurity has spread: the state between two calls of `taint`. -/
def AllSpread (lut : NodeLut) : Prop :=
  ∀ id n, lut id = some n → n.pnPurity = .impure → Spread lut n

theorem AllSpread.later {lut lut' : NodeLut} (h : AllSpread lut) (taints : Taints lut lut') :
    AllSpread lut' := by
  intro id n' found' impure
  rcases taints.spread id n' found' impure with before | spread
  · obtain ⟨n, found, wasImpure⟩ := isImpure_iff.mp before
    obtain ⟨m, foundm, same⟩ := taints.kept id n found
    obtain rfl : m = n' := Option.some.inj (foundm.symm.trans found')
    exact (h id n found wasImpure).later (fun _ => taints.isImpure) same
  · exact spread

theorem undecided_lt_fuel (P : Program) (lut : NodeLut) : undecided P lut < P.fuel :=
  Nat.lt_succ_of_le List.countP_le_length

/-- What holds of the table while the body of the field `node` is traversed. -/
structure During (P : Program) (node : FieldId) (start lut : NodeLut) : Prop where
  valid : Valid P lut
  spread : AllSpread lut
  grows : Grows start lut
  caller : ∃ n, lut node = some n ∧ n.declared ≠ .ok .pure

theorem During.later {P : Program} {node : FieldId} {start lut lut' : NodeLut}
    (h : During P node start lut) (valid : Valid P lut') (taints : Taints lut lut') :
    During P node start lut' where
  valid := valid
  spread := h.spread.later taints
  grows := h.grows.trans taints.grows
  caller := by
    obtain ⟨n, found, notPure⟩ := h.caller
    obtain ⟨n', found', same⟩ := taints.kept node n found
    exact ⟨n', found', same.declared ▸ notPure⟩

/-- The ways in which the traversal of a body may end early. -/
abbrev Exits (P : Program) (node : FieldId) (start : NodeLut) : Stop → Prop :=
  Stop.Raised fun lut => During P node start lut ∧ isImpure lut node

theorem taintRaise_ends {P : Program} {node : FieldId} {start lut : NodeLut} {Q : NodeLut → Prop}
    (h : During P node start lut) :
    Ends Q (Exits P node start) (taintRaise P.fuel node lut) := by
  obtain ⟨n, found, notPure⟩ := h.caller
  refine (taint_ends P.fuel lut node n h.valid found (fun pure => absurd pure notPure)
    (undecided_lt_fuel P lut)).bind fun lut' ⟨valid, taints, impure⟩ => ?_
  exact ⟨h.later valid taints, impure⟩

theorem getPurityFromMeta_ne_inferred (metas : Metadata) :
    getPurityFromMeta metas ≠ .ok .inferredPure := by
  unfold getPurityFromMeta
  repeat' split
  all_goals simp

theorem getPurity_ne_inferred (c : TClass) (cf : TClassField) :
    getPurity c cf ≠ .ok .inferredPure := by
  unfold getPurity
  cases getPurityFromMeta cf.cfMeta with
  | error e => exact nofun
  | ok p =>
    cases p with
    | maybePure => exact getPurityFromMeta_ne_inferred c.clMeta
    | pure | inferredPure | impure | expectPure => exact nofun

/-- A node that is pure or expected to be was declared so. -/
theorem ValidNode.declared_of_purity {P : Program} {lut : NodeLut} {id : FieldId} {n : PurityNode}
    (h : ValidNode P lut id n) (tainted : n.pnPurity ≠ .impure) : n.declared = .ok n.pnPurity := by
  obtain ⟨p, declared, same | ⟨impure, -⟩⟩ := h.purity
  · rw [declared, same]
  · exact absurd impure tainted

/-- Recording a caller, as `check_field` does it. -/
theorem addDependent_during {P : Program} {node id : FieldId} {start lut : NodeLut} {n : PurityNode}
    (h : During P node start lut) (found : lut id = some n) (maybe : n.pnPurity = .maybePure) :
    During P node start
      (Function.update lut id (some { n with pnDependents := node :: n.pnDependents })) := by
  set lut' := Function.update lut id (some { n with pnDependents := node :: n.pnDependents })
    with hlut'
  have kept : ∀ x m, lut x = some m → ∃ m', lut' x = some m' ∧ m'.pnClass = m.pnClass ∧
      m'.pnField = m.pnField ∧ m.pnDependents ⊆ m'.pnDependents ∧ m'.pnPurity = m.pnPurity := by
    intro x m foundm
    by_cases here : x = id
    · subst here
      obtain rfl : m = n := Option.some.inj (foundm.symm.trans found)
      exact ⟨_, Function.update_self .., rfl, rfl, List.subset_cons_self .., rfl⟩
    · exact ⟨m, (Function.update_of_ne here ..).trans foundm, rfl, rfl, fun _ h => h, rfl⟩
  have declared : ∀ d, (∃ nd, lut d = some nd ∧ nd.declared ≠ .ok .pure) →
      ∃ nd, lut' d = some nd ∧ nd.declared ≠ .ok .pure := by
    rintro d ⟨nd, foundd, notPure⟩
    obtain ⟨nd', foundd', sameClass, sameField, -⟩ := kept d nd foundd
    exact ⟨nd', foundd', declared_congr sameClass sameField ▸ notPure⟩
  have impure : ∀ x, isImpure lut x → isImpure lut' x := by
    intro x tainted
    obtain ⟨m, foundm, purity⟩ := isImpure_iff.mp tainted
    obtain ⟨m', foundm', -, -, -, same⟩ := kept x m foundm
    exact isImpure_iff.mpr ⟨m', foundm', same.trans purity⟩
  refine ⟨?_, ?_, h.grows.trans ?_, declared node h.caller⟩
  · intro x m foundm
    rcases update_eq_some foundm with ⟨rfl, rfl⟩ | ⟨-, foundm⟩
    · have valid := h.valid x n found
      refine ⟨valid.field, valid.key, valid.purity, ?_, valid.exposed, ?_⟩
      · intro d inside
        rcases List.mem_cons.mp inside with rfl | inside
        · exact declared _ h.caller
        · exact declared d (valid.dependents d inside)
      · intro (impure : n.declared = _)
        rw [valid.declared_of_purity (by simp [maybe]), maybe] at impure
        cases impure
    · have valid := h.valid x m foundm
      exact ⟨valid.field, valid.key, valid.purity,
        fun d inside => declared d (valid.dependents d inside), valid.exposed, valid.quiet⟩
  · intro x m foundm tainted
    rcases update_eq_some foundm with ⟨rfl, rfl⟩ | ⟨-, foundm⟩
    · have : n.pnPurity = .impure := tainted
      rw [maybe] at this
      cases this
    · exact (h.spread x m foundm tainted).later impure (SameNode.refl m)
  · intro x m foundm
    obtain ⟨m', foundm', sameClass, sameField, dependents, purity⟩ := kept x m foundm
    exact ⟨m', foundm', sameClass, sameField, dependents, Or.inl purity⟩

/-- Between two tables of a traversal. -/
abbrev Continues (P : Program) (node : FieldId) (start lut lut' : NodeLut) : Prop :=
  During P node start lut' ∧ Grows lut lut'

theorem checkField_ends {P : Program} {fc : FieldCheck} {start lut : NodeLut} {c : TClass}
    {cf : TClassField} (fuel : fc.fuel = P.fuel) (h : During P fc.node start lut)
    (member : (c, cf) ∈ allFields P.types) :
    Ends (fun lut' => Continues P fc.node start lut lut' ∧
        Recorded lut' fc.node (getFieldId c cf))
      (Exits P fc.node start) (fc.checkField c cf lut) := by
  unfold FieldCheck.checkField
  refine (getNode_ends h.valid member).bind fun ⟨n, lut'⟩ ⟨valid, taints, found⟩ => ?_
  have during := h.later valid taints
  have declared := (valid _ n found).declared_of_purity
  cases purity : n.pnPurity with
  | pure =>
    simp only [purity]
    exact ⟨⟨during, taints.grows⟩, n, found, Or.inl (purity ▸ declared (by simp [purity]))⟩
  | expectPure p =>
    simp only [purity]
    exact ⟨⟨during, taints.grows⟩, n, found,
      Or.inr (Or.inl ⟨p, purity ▸ declared (by simp [purity])⟩)⟩
  | inferredPure =>
    have := declared (by simp [purity])
    rw [purity] at this
    exact absurd this (getPurity_ne_inferred _ _)
  | impure =>
    simp only [purity]
    rw [fuel]
    exact taintRaise_ends during
  | maybePure =>
    obtain ⟨pnClass, pnField, pnPurity, pnDependents⟩ := n
    obtain rfl : pnPurity = .maybePure := purity
    have recorded := addDependent_during during found rfl
    refine ⟨⟨recorded, taints.grows.trans ?_⟩, _, Function.update_self ..,
      Or.inr (Or.inr (by simp))⟩
    intro x m foundm
    by_cases here : x = getFieldId c cf
    · subst here
      obtain rfl := Option.some.inj (foundm.symm.trans found)
      exact ⟨_, Function.update_self .., rfl, rfl, List.subset_cons_self .., Later.refl _⟩
    · exact ⟨m, (Function.update_of_ne here ..).trans foundm, rfl, rfl, fun _ h => h, Later.refl _⟩

theorem checkWrite_ends {P : Program} {fc : FieldCheck} {start lut : NodeLut} {e1 : TExpr}
    (fuel : fc.fuel = P.fuel) (h : During P fc.node start lut) :
    Ends (fun lut' => lut' = lut ∧ WriteAllowed fc.isCtor e1) (Exits P fc.node start)
      (fc.checkWrite e1 lut) := by
  unfold FieldCheck.checkWrite
  rw [fuel]
  split
  · split
    · exact taintRaise_ends h
    · next value => exact ⟨rfl, by simpa [WriteAllowed] using value⟩
  · split
    · next ctor => exact ⟨rfl, ctor⟩
    · exact taintRaise_ends h
  · exact taintRaise_ends h

/-- What a finished traversal says about one of the expressions it saw. -/
abbrev Cleared (fc : FieldCheck) (lut : NodeLut) (s : TExpr) : Prop :=
  Allowed fc.types fc.isCtor fc.c (Recorded lut fc.node) s

theorem Cleared.later {fc : FieldCheck} {lut lut' : NodeLut} {s : TExpr} (h : Cleared fc lut s)
    (grows : Grows lut lut') : Cleared fc lut' s :=
  h.mono fun _ recorded => recorded.later grows

/-- What the traversal of `e` establishes. -/
def LoopSpec (P : Program) (fc : FieldCheck) (start : NodeLut) (e : TExpr) : Prop :=
  ∀ lut, During P fc.node start lut →
    Ends (fun lut' => Continues P fc.node start lut lut' ∧ ∀ s, Visible s e → Cleared fc lut' s)
      (Exits P fc.node start) (fc.loop e lut)

/-- `List.iter loop el`. -/
theorem loopList_ends {P : Program} {fc : FieldCheck} {start lut : NodeLut} {el : List TExpr}
    (spec : ∀ e ∈ el, LoopSpec P fc start e) (h : During P fc.node start lut) :
    Ends (fun lut' => Continues P fc.node start lut lut' ∧
        ∀ e ∈ el, ∀ s, Visible s e → Cleared fc lut' s)
      (Exits P fc.node start) (el.foldlM (fun lut e => fc.loop e lut) lut) := by
  have whole : Ends (fun lut' => Continues P fc.node start lut lut' ∧
      (∀ e ∈ el, ∀ s, Visible s e → Cleared fc lut' s) ∧
      ∀ e, (∀ s, Visible s e → Cleared fc lut s) → ∀ s, Visible s e → Cleared fc lut' s)
      (Exits P fc.node start) (el.foldlM (fun lut e => fc.loop e lut) lut) := by
    refine Ends.foldlM_forall (R := fun e lut => ∀ s, Visible s e → Cleared fc lut s) ?_
      ⟨h, Grows.refl lut⟩
    rintro e member lut' ⟨during, grows⟩
    refine (spec e member lut' during).mono ?_
    rintro lut'' ⟨⟨during', grows'⟩, cleared⟩
    exact ⟨⟨during', grows.trans grows'⟩, cleared,
      fun e' before s visible => (before s visible).later grows'⟩
  exact whole.mono fun lut' ⟨continues, cleared, _⟩ => ⟨continues, cleared⟩

theorem visible_cases {s e : TExpr} (h : Visible s e) :
    s = e ∨ isTrusted e = false ∧ ∃ e' ∈ e.children, Visible s e' := by
  cases h with
  | here => exact Or.inl rfl
  | child member untrusted sub => exact Or.inr ⟨untrusted, _, member, sub⟩

/-- The writable targets and the callees that are not traversed hide nothing. -/
theorem visible_leaf {s e : TExpr} (leaf : e.children = []) (h : Visible s e) : s = e := by
  rcases visible_cases h with rfl | ⟨-, e', member, -⟩
  · rfl
  · rw [leaf] at member
    cases member

theorem cleared_target {fc : FieldCheck} {lut : NodeLut} {s e1 : TExpr}
    (allowed : WriteAllowed fc.isCtor e1) (h : Visible s e1) : Cleared fc lut s := by
  unfold WriteAllowed at allowed
  split at allowed
  · obtain rfl := visible_leaf rfl h
    trivial
  · rcases visible_cases h with rfl | ⟨-, e', member, sub⟩
    · trivial
    · obtain rfl := List.mem_singleton.mp member
      obtain rfl := visible_leaf rfl sub
      trivial
  · exact allowed.elim

theorem mem_allFields {types : List TClass} {c : TClass} {cf : TClassField} (inTypes : c ∈ types)
    (field : (c, cf) ∈ classFields c) : (c, cf) ∈ allFields types :=
  List.mem_flatMap.mpr ⟨c, inTypes, List.mem_flatMap.mpr ⟨c, List.mem_cons_self .., field⟩⟩

theorem findStatic_mem {types : List TClass} {path : Path} {name : String}
    {f : TClass × TClassField} (h : findStatic types path name = some f) : f ∈ allFields types := by
  unfold findStatic at h
  simp only [Option.bind_eq_bind, Option.bind_eq_some_iff, Option.pure_def, Option.some.injEq] at h
  obtain ⟨c, foundc, cf, foundcf, rfl⟩ := h
  refine mem_allFields (List.mem_of_find?_eq_some foundc) (List.mem_map.mpr ⟨cf, ?_, rfl⟩)
  simp [List.mem_of_find?_eq_some foundcf]

theorem findConstructor_mem {c : Option TClass} {f : TClass × TClassField}
    (h : findConstructor c = some f) : c = some f.1 ∧ f ∈ classFields f.1 := by
  unfold findConstructor at h
  simp only [Option.bind_eq_some_iff, Option.map_eq_some_iff] at h
  obtain ⟨c', rfl, cf, ctor, rfl⟩ := h
  exact ⟨rfl, List.mem_map.mpr ⟨cf, by simp [ctor], rfl⟩⟩

/-- Static accesses in `e` go through a type expression. -/
def Qualified (e : TExpr) : Prop :=
  ∀ e' c cf, TExpr.Subexpr (.tField e' (.fStatic c cf)) e → ∃ m, e' = .tTypeExpr m

theorem Qualified.child {e e' : TExpr} (h : Qualified e) (member : e' ∈ e.children) :
    Qualified e' :=
  fun r c cf sub => h r c cf (.child member sub)

theorem Qualified.of_children {e : TExpr}
    (here : ∀ r c cf, e = .tField r (.fStatic c cf) → ∃ m, r = .tTypeExpr m)
    (below : ∀ e' ∈ e.children, Qualified e') : Qualified e := by
  intro r c cf sub
  rcases TExpr.subexpr_cases sub with same | ⟨e', member, sub⟩
  · exact here r c cf same.symm
  · exact below e' member r c cf sub

/-- Where the traversal reads its surroundings. -/
structure FieldCheck.Within (fc : FieldCheck) (P : Program) : Prop where
  types : fc.types = P.types
  fuel : fc.fuel = P.fuel
  chain : ∀ c, fc.c.clSuper = some c → ∀ f ∈ classFields c, f ∈ allFields P.types

/-- An expression is cleared when it is itself and everything below it is. -/
theorem cleared_of_children {fc : FieldCheck} {lut : NodeLut} {e : TExpr} (here : Cleared fc lut e)
    (below : isTrusted e = false → ∀ e' ∈ e.children, ∀ s, Visible s e' → Cleared fc lut s)
    (s : TExpr) (visible : Visible s e) : Cleared fc lut s := by
  rcases visible_cases visible with rfl | ⟨untrusted, e', member, sub⟩
  · exact here
  · exact below untrusted e' member s sub

/-- The traversal visits the children of all expressions it does not single out. -/
theorem loop_children {P : Program} {fc : FieldCheck} {start lut : NodeLut} {e : TExpr}
    (spec : ∀ e' ∈ e.children, LoopSpec P fc start e')
    (here : ∀ lut, Cleared fc lut e)
    (h : During P fc.node start lut) :
    Ends (fun lut' => Continues P fc.node start lut lut' ∧ ∀ s, Visible s e → Cleared fc lut' s)
      (Exits P fc.node start) (e.children.attach.foldlM (fun lut e => fc.loop e.1 lut) lut) := by
  have direct : e.children.attach.foldlM (fun lut e => fc.loop e.1 lut) lut =
      e.children.foldlM (fun lut e => fc.loop e lut) lut := by
    rw [List.foldlM_subtype (g := fun lut e => fc.loop e lut) fun _ _ _ => rfl,
      List.unattach_attach]
  rw [direct]
  refine (loopList_ends spec h).mono ?_
  rintro lut' ⟨continues, cleared⟩
  exact ⟨continues, cleared_of_children (here lut') fun _ => cleared⟩

/-- Arguments, then the callee: `TNew` and calls of static fields. -/
theorem loop_thenCheck {P : Program} {fc : FieldCheck} {start lut : NodeLut} {el : List TExpr}
    {f : Option (TClass × TClassField)} (fuel : fc.fuel = P.fuel)
    (spec : ∀ e ∈ el, LoopSpec P fc start e) (h : During P fc.node start lut) :
    (∀ g, f = some g → g ∈ allFields P.types) →
    Ends (fun lut' => Continues P fc.node start lut lut' ∧
        (∀ e ∈ el, ∀ s, Visible s e → Cleared fc lut' s) ∧
        ∃ g, f = some g ∧ Recorded lut' fc.node (getFieldId g.1 g.2))
      (Exits P fc.node start) (el.foldlM (fun lut e => fc.loop e lut) lut >>= fun lut =>
        match f with
        | some (c, cf) => fc.checkField c cf lut
        | none => taintRaise fc.fuel fc.node lut) := by
  intro member
  refine (loopList_ends spec h).bind fun lut' ⟨⟨during, grows⟩, cleared⟩ => ?_
  cases f with
  | none =>
    rw [fuel]
    exact taintRaise_ends during
  | some g =>
    refine (checkField_ends fuel during (member g rfl)).mono ?_
    rintro lut'' ⟨⟨during', grows'⟩, recorded⟩
    exact ⟨⟨during', grows.trans grows'⟩, fun e inside s visible => (cleared e inside s visible).later
      grows', g, rfl, recorded⟩

/-- The callee, then the arguments: calls of the super constructor. -/
theorem loop_checkFirst {P : Program} {fc : FieldCheck} {start lut : NodeLut} {el : List TExpr}
    {f : Option (TClass × TClassField)} (fuel : fc.fuel = P.fuel)
    (spec : ∀ e ∈ el, LoopSpec P fc start e) (h : During P fc.node start lut) :
    (∀ g, f = some g → g ∈ allFields P.types) →
    Ends (fun lut' => Continues P fc.node start lut lut' ∧
        (∀ e ∈ el, ∀ s, Visible s e → Cleared fc lut' s) ∧
        ∃ g, f = some g ∧ Recorded lut' fc.node (getFieldId g.1 g.2))
      (Exits P fc.node start) (match f with
        | some (c, cf) => do
          let lut ← fc.checkField c cf lut
          el.foldlM (fun lut e => fc.loop e lut) lut
        | none => taintRaise fc.fuel fc.node lut) := by
  intro member
  cases f with
  | none =>
    rw [fuel]
    exact taintRaise_ends h
  | some g =>
    refine (checkField_ends fuel h (member g rfl)).bind fun lut' ⟨⟨during, grows⟩, recorded⟩ => ?_
    refine (loopList_ends spec during).mono ?_
    rintro lut'' ⟨⟨during', grows'⟩, cleared⟩
    exact ⟨⟨during', grows.trans grows'⟩, cleared, g, rfl, recorded.later grows'⟩

theorem loop_ends {P : Program} {fc : FieldCheck} {start : NodeLut} (within : fc.Within P)
    (e : TExpr) : Qualified e → LoopSpec P fc start e := by
  induction e using TExpr.childInduction with
  | step e ih =>
    intro qualified lut h
    have spec : ∀ e' ∈ e.children, LoopSpec P fc start e' :=
      fun e' member => ih e' member (qualified.child member)
    have raise {Q : NodeLut → Prop} :
        Ends Q (Exits P fc.node start) (taintRaise fc.fuel fc.node lut) := by
      rw [within.fuel]
      exact taintRaise_ends h
    cases e
    case tConst | tLocal | tBreak | tContinue | tTypeExpr | tIdent | tArray | tFor | tWhile
        | tField | tEnumParameter | tEnumIndex | tParenthesis | tCast | tArrayDecl | tBlock
        | tObjectDecl | tVar | tFunction | tIf | tSwitch | tTry | tReturn =>
      unfold FieldCheck.loop
      exact loop_children spec (fun _ => trivial) h
    case tThrow e =>
      unfold FieldCheck.loop
      exact raise
    case tMeta m e =>
      unfold FieldCheck.loop
      split
      · next isPure =>
        cases purity : getPurityFromMeta [m] with
        | error err => exact trivial
        | ok p =>
          have trusted (notImpure : p ≠ .impure) (s : TExpr) (visible : Visible s (.tMeta m e)) :
              Cleared fc lut s := by
            refine cleared_of_children (e := .tMeta m e) trivial (fun untrusted => ?_) s visible
            simp only [isTrusted, isPure, purity, decide_true, Bool.true_and] at untrusted
            split at untrusted
            · next same => exact absurd (Except.ok.inj same) notImpure
            · cases untrusted
          cases p with
          | impure => exact raise
          | pure | maybePure | inferredPure | expectPure =>
            exact ⟨⟨h, Grows.refl _⟩, trusted (by simp)⟩
      · refine (spec e (by simp [TExpr.children]) lut h).mono ?_
        rintro lut' ⟨continues, cleared⟩
        refine ⟨continues, cleared_of_children trivial fun _ e' member => ?_⟩
        obtain rfl := List.mem_singleton.mp member
        exact cleared
    case tBinop op e1 e2 =>
      unfold FieldCheck.loop
      split
      · refine (checkWrite_ends within.fuel h).bind fun lut' written => ?_
        obtain ⟨rfl, allowed⟩ := written
        refine (spec e2 (by simp [TExpr.children]) lut' h).mono ?_
        rintro lut'' ⟨continues, cleared⟩
        refine ⟨continues, cleared_of_children (fun _ => allowed) fun _ e' member => ?_⟩
        rcases List.mem_cons.mp member with rfl | member
        · exact fun s => cleared_target allowed
        · obtain rfl := List.mem_singleton.mp member
          exact cleared
      · next noAssign =>
        refine (spec e1 (by simp [TExpr.children]) lut h).bind fun lut' first => ?_
        obtain ⟨⟨during, grows⟩, cleared⟩ := first
        refine (spec e2 (by simp [TExpr.children]) lut' during).mono ?_
        rintro lut'' ⟨⟨during', grows'⟩, cleared'⟩
        refine ⟨⟨during', grows.trans grows'⟩,
          cleared_of_children (fun assign => absurd assign noAssign) fun _ e' member => ?_⟩
        rcases List.mem_cons.mp member with rfl | member
        · exact fun s visible => (cleared s visible).later grows'
        · obtain rfl := List.mem_singleton.mp member
          exact cleared'
    case tUnop op flag e1 =>
      unfold FieldCheck.loop
      split
      · refine (checkWrite_ends within.fuel h).mono ?_
        rintro lut' ⟨rfl, allowed⟩
        refine ⟨⟨h, Grows.refl _⟩, cleared_of_children (fun _ => allowed) fun _ e' member s => ?_⟩
        obtain rfl := List.mem_singleton.mp member
        exact cleared_target allowed
      · next noWrite =>
        refine (spec e1 (by simp [TExpr.children]) lut h).mono ?_
        rintro lut' ⟨continues, cleared⟩
        refine ⟨continues, cleared_of_children (fun write => absurd write noWrite)
          fun _ e' member => ?_⟩
        obtain rfl := List.mem_singleton.mp member
        exact cleared
    case tNew path el =>
      unfold FieldCheck.loop
      refine (@loop_thenCheck _ _ _ _ el _ within.fuel spec h ?_).mono ?_
      · rw [within.types]
        intro g found
        obtain ⟨foundc, own⟩ := findConstructor_mem found
        exact mem_allFields (List.mem_of_find?_eq_some foundc) own
      · rintro lut' ⟨continues, cleared, callee⟩
        exact ⟨continues, cleared_of_children callee fun _ => cleared⟩
    case tCall callee el =>
      have arguments : ∀ e ∈ el, LoopSpec P fc start e :=
        fun e member => spec e (List.mem_cons_of_mem _ member)
      unfold FieldCheck.loop
      split
      · next r path name =>
        refine (loop_thenCheck within.fuel arguments h ?_).mono ?_
        · rw [within.types]
          exact fun g => findStatic_mem
        · rintro lut' ⟨continues, cleared, callee⟩
          refine ⟨continues, cleared_of_children callee fun _ e' member => ?_⟩
          rcases List.mem_cons.mp member with rfl | member
          · obtain ⟨m, rfl⟩ := qualified r path name (.child (List.mem_cons_self ..) .here)
            refine cleared_of_children trivial fun _ e' member s visible => ?_
            obtain rfl := List.mem_singleton.mp member
            obtain rfl := visible_leaf rfl visible
            trivial
          · exact cleared e' member
      · refine (loop_checkFirst within.fuel arguments h ?_).mono ?_
        · intro g found
          obtain ⟨foundc, own⟩ := findConstructor_mem found
          exact within.chain g.1 foundc g own
        · rintro lut' ⟨continues, cleared, callee⟩
          refine ⟨continues, cleared_of_children callee fun _ e' member => ?_⟩
          rcases List.mem_cons.mp member with rfl | member
          · intro s visible
            obtain rfl := visible_leaf rfl visible
            trivial
          · exact cleared e' member
      · split
        · next name quiet =>
          refine (loopList_ends arguments h).mono ?_
          rintro lut' ⟨continues, cleared⟩
          have allowed : isUnboundCallThatMightHaveSideEffects name el = false := by
            simpa using quiet
          refine ⟨continues, cleared_of_children allowed fun _ e' member => ?_⟩
          rcases List.mem_cons.mp member with rfl | member
          · intro s visible
            obtain rfl := visible_leaf rfl visible
            trivial
          · exact cleared e' member
        · exact raise
      · exact raise

end Haxe.Source.Optimization.Purity
