import Haxe.Source.Core.TType
import Haxe.Source.Core.Texpr

/-!
# Purity states

`context/purityState.ml`: what the metadata of a field, or failing that of its class,
says about the purity of the field before it is inferred.
-/

namespace Haxe.Source.Context

open Typing (Pos)
open Core

inductive Purity where
  | pure
  | impure
  | maybePure
  | inferredPure
  | expectPure (p : Pos)
  deriving DecidableEq, Repr

/-- The error raised by `get_purity_from_meta`. -/
structure PurityError where
  message : String
  pos : Pos
  deriving DecidableEq, Repr

def getPurityFromMeta (metas : Metadata) : Except PurityError Purity :=
  match metas.get .pure with
  | none => .ok .maybePure
  | some ⟨_, [.ident s p], _⟩ =>
    if s = "true" ∨ s = "inferredPure" then .ok .pure
    else if s = "false" then .ok .impure
    else if s = "expect" then .ok (.expectPure p)
    else .error ⟨"Unsupported purity value " ++ s ++ ", expected true or false", p⟩
  | some ⟨_, [], _⟩ => .ok .pure
  | some ⟨_, _, p⟩ => .error ⟨"Unsupported purity value", p⟩

def getPurity (c : TClass) (cf : TClassField) : Except PurityError Purity := do
  match ← getPurityFromMeta cf.cfMeta with
  | .pure | .inferredPure => .ok .pure
  | .impure => .ok .impure
  | .expectPure p => .ok (.expectPure p)
  | .maybePure => getPurityFromMeta c.clMeta

def isPure (c : TClass) (cf : TClassField) : Except PurityError Bool := do
  return (← getPurity c cf) = .pure

end Haxe.Source.Context

/-!
## Purity inference

`AnalyzerTexpr.Purity`. `node_lut` maps the printed "path.name" of a field to its node;
that string determines the path and the name, which are the key here. `Exit` carries the
nodes as they are when it is raised.
-/

namespace Haxe.Source.Optimization.Purity

open Typing (Pos)
open Core Context
open Syntax (Binop Unop UnopFlag)

abbrev FieldId := Path × String

def getFieldId (c : TClass) (cf : TClassField) : FieldId := (c.clPath, cf.cfName)

structure PurityNode where
  pnClass : TClass
  pnField : TClassField
  pnPurity : Purity
  pnDependents : List FieldId

abbrev NodeLut := FieldId → Option PurityNode

/-- How a step of the inference ends when it does not return. -/
inductive Stop where
  | exit (lut : NodeLut)
  | purityConflict (node : PurityNode) (p : Pos)
  | error (e : PurityError)
  | outOfFuel

/-- `get_node`, with the table after it. -/
def getNode (c : TClass) (cf : TClassField) (lut : NodeLut) : Except Stop (PurityNode × NodeLut) :=
  match lut (getFieldId c cf) with
  | some node => .ok (node, lut)
  | none => do
    let pnPurity ← (getPurity c cf).mapError Stop.error
    let node : PurityNode := ⟨c, cf, pnPurity, []⟩
    return (node, Function.update lut (getFieldId c cf) (some node))

/-- `PMap.find name c.cl_fields`. -/
def findField (name : String) (c : TClass) : Option TClassField :=
  c.clFields.find? fun cf => cf.cfName = name

/-- What `taint` does after marking a node: its dependents, then the field of that name in
each super class. -/
def taintOthers (taint : FieldId → NodeLut → Except Stop NodeLut) (node : PurityNode)
    (lut : NodeLut) : Except Stop NodeLut := do
  let lut ← node.pnDependents.foldlM (fun lut d => taint d lut) lut
  node.pnClass.supers.foldlM (fun lut c =>
    match findField node.pnField.cfName c with
    | none => .ok lut
    | some cf => do
      let (_, lut) ← getNode c cf lut
      taint (getFieldId c cf) lut) lut

def taint : Nat → FieldId → NodeLut → Except Stop NodeLut
  | 0, _, _ => .error .outOfFuel
  | fuel + 1, id, lut =>
    match lut id with
    | none => .ok lut
    | some node =>
      match node.pnPurity with
      | .impure => .ok lut
      | .expectPure p => .error (.purityConflict node p)
      | .maybePure | .pure | .inferredPure =>
        taintOthers (taint fuel) node
          (Function.update lut id (some { node with pnPurity := .impure }))

def taintRaise (fuel : Nat) (node : FieldId) (lut : NodeLut) : Except Stop NodeLut := do
  let lut ← taint fuel node lut
  .error (.exit lut)

/-- `^\([A-Za-z0-9_]\)+$` of `Str`, whose `$` also matches before a line break. -/
def isPlainIdentifier (s : String) : Bool :=
  let word := fun c : Char => c.isAlphanum || c = '_'
  !(s.toList.takeWhile word).isEmpty && match s.toList.dropWhile word with
    | [] => true
    | c :: _ => c = '\n'

def isUnboundCallThatMightHaveSideEffects (s : String) (el : List TExpr) : Bool :=
  match s, el with
  | "__js__", [.tConst (.tString s)] => !isPlainIdentifier s
  | _, _ => true

/-- The class an expression refers to. -/
def findClass (types : List TClass) (path : Path) : Option TClass :=
  types.find? fun c => c.clPath = path

/-- The constructor an expression refers to, with its class. -/
def findConstructor (c : Option TClass) : Option (TClass × TClassField) :=
  c.bind fun c => c.clConstructor.map (c, ·)

/-- The static field an expression refers to, with its class. -/
def findStatic (types : List TClass) (path : Path) (name : String) :
    Option (TClass × TClassField) := do
  let c ← findClass types path
  let cf ← c.clOrderedStatics.find? fun cf => cf.cfName = name
  return (c, cf)

/-- What the traversal of a field's body reads of its surroundings. -/
structure FieldCheck where
  types : List TClass
  fuel : Nat
  isCtor : Bool
  c : TClass
  node : FieldId

namespace FieldCheck

variable (fc : FieldCheck)

def checkField (c : TClass) (cf : TClassField) (lut : NodeLut) : Except Stop NodeLut := do
  let (node', lut) ← getNode c cf lut
  match node'.pnPurity with
  | .pure | .inferredPure | .expectPure _ => return lut
  | .impure => taintRaise fc.fuel fc.node lut
  | .maybePure =>
    return Function.update lut (getFieldId c cf)
      (some { node' with pnDependents := fc.node :: node'.pnDependents })

def checkWrite (e1 : TExpr) (lut : NodeLut) : Except Stop NodeLut :=
  match e1 with
  | .tLocal v =>
    if hasReferenceSemantics v.vType then taintRaise fc.fuel fc.node lut else .ok lut
  | .tField (.tConst .tThis) _ =>
    if fc.isCtor then .ok lut else taintRaise fc.fuel fc.node lut
  | _ => taintRaise fc.fuel fc.node lut

def isAssign : Binop → Bool
  | .opAssign | .opAssignOp _ => true
  | _ => false

/-- `loop`. The source never sees a reference to a class or a field that does not exist;
here such a reference counts as impure. -/
@[grind =] def loop : TExpr → NodeLut → Except Stop NodeLut
  | .tMeta m e, lut =>
    if m.name = .pure then do
      match ← (getPurityFromMeta [m]).mapError Stop.error with
      | .impure => taintRaise fc.fuel fc.node lut
      | _ => return lut
    else loop e lut
  | .tThrow _, lut => taintRaise fc.fuel fc.node lut
  | .tBinop op e1 e2, lut =>
    if isAssign op then do
      let lut ← fc.checkWrite e1 lut
      loop e2 lut
    else do
      let lut ← loop e1 lut
      loop e2 lut
  | .tUnop op _ e1, lut =>
    if op = .increment ∨ op = .decrement then fc.checkWrite e1 lut else loop e1 lut
  | .tNew path el, lut => do
    let lut ← el.foldlM (fun lut e => loop e lut) lut
    match findConstructor (findClass fc.types path) with
    | some (c, cf) => fc.checkField c cf lut
    | none => taintRaise fc.fuel fc.node lut
  | .tCall callee el, lut =>
    match callee with
    | .tField _ (.fStatic path name) => do
      let lut ← el.foldlM (fun lut e => loop e lut) lut
      match findStatic fc.types path name with
      | some (c, cf) => fc.checkField c cf lut
      | none => taintRaise fc.fuel fc.node lut
    | .tConst .tSuper =>
      match findConstructor fc.c.clSuper with
      | some (c, cf) => do
        let lut ← fc.checkField c cf lut
        el.foldlM (fun lut e => loop e lut) lut
      | none => taintRaise fc.fuel fc.node lut
    | .tIdent s =>
      if !isUnboundCallThatMightHaveSideEffects s el then
        el.foldlM (fun lut e => loop e lut) lut
      else taintRaise fc.fuel fc.node lut
    | _ => taintRaise fc.fuel fc.node lut
  | e, lut => e.children.attach.foldlM (fun lut e => loop e.1 lut) lut
termination_by e => sizeOf e
decreasing_by
  all_goals first
    | exact TExpr.sizeOf_children e.2
    | (rename_i member
       have := List.sizeOf_lt_of_mem member
       simp only [TExpr.tNew.sizeOf_spec, TExpr.tCall.sizeOf_spec]
       omega)
    | (simp only [TExpr.tMeta.sizeOf_spec, TExpr.tBinop.sizeOf_spec, TExpr.tUnop.sizeOf_spec]
       omega)

end FieldCheck

/-- Code that is written in another language, or not at all. -/
def isForeign (c : TClass) (cf : TClassField) : Bool :=
  cf.cfExtern || cf.cfMeta.has .functionCode || cf.cfMeta.has .hlNative || c.clMeta.has .hlNative

/-- The fields of a class, each with the class. -/
def classFields (c : TClass) : List (TClass × TClassField) :=
  (c.clFields ++ c.clOrderedFields ++ c.clOrderedStatics ++ c.clConstructor.toList).map (c, ·)

/-- The fields of the classes in a list and of their super classes. -/
def allFields (types : List TClass) : List (TClass × TClassField) :=
  types.flatMap fun c => (c :: c.supers).flatMap classFields

/-- The classes of `com.types`. A path belongs to one class; only a foreign class may give
two of its fields one name; and the typer qualifies a static access with a type expression. -/
structure Program where
  types : List TClass
  distinctClasses : ∀ f ∈ allFields types, ∀ f' ∈ allFields types,
    f.1.clPath = f'.1.clPath → f.1 = f'.1
  distinctFields : ∀ f ∈ allFields types, ∀ f' ∈ allFields types, f.1 = f'.1 →
    f.2.cfName = f'.2.cfName → f.2.cfExpr.isSome → isForeign f.1 f.2 = false → f.2 = f'.2
  qualified : ∀ f ∈ allFields types, ∀ body, f.2.cfExpr = some body →
    ∀ e c cf, TExpr.Subexpr (.tField e (.fStatic c cf)) body → ∃ m, e = .tTypeExpr m

/-- A field as `apply_to_class` comes across it. -/
structure Site where
  isCtor : Bool
  isStatic : Bool
  c : TClass
  cf : TClassField

def Site.id (site : Site) : FieldId := getFieldId site.c site.cf

/-- A field whose code may be replaced: a variable, a dynamic method, or an instance method
that is not final. -/
def Site.Overridable (site : Site) : Prop :=
  (site.cf.cfKind = .method .methDynamic ∨ site.cf.cfKind = .var) ∨
    site.cf.cfKind = .method .methNormal ∧ ¬ (site.isStatic ∨ site.isCtor ∨ site.cf.cfFinal)

def classSites (c : TClass) : List Site :=
  c.clOrderedFields.map (⟨false, false, c, ·⟩) ++ c.clOrderedStatics.map (⟨false, true, c, ·⟩) ++
    c.clConstructor.toList.map (⟨true, false, c, ·⟩)

namespace Program

variable (P : Program)

def sites : List Site := P.types.flatMap classSites

/-- More than the nodes that can be tainted one below the other. -/
def fuel : Nat := (allFields P.types).length + 1

/-- A `try` block that catches `Exit`. -/
def catchExit : Except Stop NodeLut → Except Stop NodeLut
  | .error (.exit lut) => .ok lut
  | r => r

def applyToField (isCtor isStatic : Bool) (c : TClass) (cf : TClassField) (lut : NodeLut) :
    Except Stop NodeLut := do
  let id := getFieldId c cf
  let (node, lut) ← getNode c cf lut
  if cf.cfKind = .method .methDynamic ∨ cf.cfKind = .var then
    taint P.fuel id lut
  else if cf.cfKind = .method .methNormal ∧ ¬ (isStatic ∨ isCtor ∨ cf.cfFinal) then
    taint P.fuel id lut
  else
    let taintUnlessPure := do
      if ← (isPure c cf).mapError Stop.error then return lut else taint P.fuel id lut
    match cf.cfExpr with
    | none => taintUnlessPure
    | some e =>
      if isForeign c cf then
        taintUnlessPure
      else
        catchExit <| match node.pnPurity with
          | .impure => taintRaise P.fuel id lut
          | .pure => .error (.exit lut)
          | _ => FieldCheck.loop ⟨P.types, P.fuel, isCtor, c, id⟩ e lut

def applyToClass (c : TClass) (lut : NodeLut) : Except Stop NodeLut := do
  let lut ← c.clOrderedFields.foldlM (fun lut cf => P.applyToField false false c cf lut) lut
  let lut ← c.clOrderedStatics.foldlM (fun lut cf => P.applyToField false true c cf lut) lut
  c.clConstructor.toList.foldlM (fun lut cf => P.applyToField true false c cf lut) lut

/-- The metadata that the last loop of `infer` adds. -/
def markInferredPure (node : PurityNode) : PurityNode :=
  if (node.pnPurity = .pure ∨ node.pnPurity = .maybePure) ∧ ¬ node.pnField.cfMeta.has .pure then
    let p := node.pnField.cfPos
    let inferred : MetadataEntry := ⟨.pure, [.ident "inferredPure" p], p⟩
    { node with pnField := { node.pnField with cfMeta := inferred :: node.pnField.cfMeta } }
  else node

def infer : Except Stop NodeLut := do
  let lut ← P.types.foldlM (fun lut c => P.applyToClass c lut) fun _ => none
  return fun id => (lut id).map markInferredPure

end Program

end Haxe.Source.Optimization.Purity
