import Haxe.Source.Syntax.Ast

/-!
# Typed expressions

The part of `core/tType.ml` that the modelled passes read. A class refers to its super
class directly, as in the source; expressions refer to classes by path and to fields by
name, because an inductive type cannot hold the cycles of the source's records. The type
and the position of an expression are not represented, only the type of a variable.
-/

namespace Haxe.Source.Core

open Typing (Pos)
open Syntax (Binop Unop UnopFlag)

/-- Package and name of a module type. -/
abbrev Path := List String × String

/-- The metadata names that are looked up; the others are named by their text. -/
inductive MetaName where
  | pure | semantics | functionCode | hlNative | this | tailRecursion
  | custom (s : String)
  deriving DecidableEq, Repr

/-- A metadata argument: an identifier with its position, or any other expression. -/
inductive MetaArg where
  | ident (s : String) (p : Pos)
  | other
  deriving DecidableEq, Repr

structure MetadataEntry where
  name : MetaName
  args : List MetaArg
  pos : Pos
  deriving DecidableEq, Repr

abbrev Metadata := List MetadataEntry

/-- `Meta.has`. -/
def Metadata.has (metas : Metadata) (m : MetaName) : Bool :=
  metas.any fun entry => entry.name = m

/-- `Meta.get`: the first entry of that name. -/
def Metadata.get (metas : Metadata) (m : MetaName) : Option MetadataEntry :=
  metas.find? fun entry => entry.name = m

/-- `has_meta_option`: some entry `m` has the argument `s`. -/
def Metadata.hasMetaOption (metas : Metadata) (m : MetaName) (s : String) : Bool :=
  metas.any fun entry => entry.name = m && entry.args.any fun
    | .ident s2 _ => s = s2
    | .other => false

/-- Types, as far as `ExtType.has_semantics` follows them. The target of a typedef is
stored with its parameters applied. -/
inductive HType where
  | tMono (r : Option HType)
  | tEnum (eMeta : Metadata)
  | tInst (clMeta : Metadata)
  | tType (tMeta : Metadata) (tType : HType)
  | tFun
  | tAnon
  | tDynamic
  | tLazy (f : HType)
  | tAbstract (aMeta : Metadata)

inductive Semantics where
  | variableSemantics | referenceSemantics | valueSemantics
  deriving DecidableEq, Repr

def semanticsName : Semantics → String
  | .variableSemantics => "variable"
  | .referenceSemantics => "reference"
  | .valueSemantics => "value"

def hasSemantics (sem : Semantics) : HType → Bool
  | .tInst clMeta => clMeta.hasMetaOption .semantics (semanticsName sem)
  | .tEnum eMeta => eMeta.hasMetaOption .semantics (semanticsName sem)
  | .tType tMeta t => tMeta.hasMetaOption .semantics (semanticsName sem) || hasSemantics sem t
  | .tAbstract aMeta => aMeta.hasMetaOption .semantics (semanticsName sem)
  | .tLazy f => hasSemantics sem f
  | .tMono (some t) => hasSemantics sem t
  | _ => false

def hasReferenceSemantics (t : HType) : Bool := hasSemantics .referenceSemantics t

inductive TConstant where
  | tInt (i : BitVec 32)
  | tFloat (s : String)
  | tString (s : String)
  | tBool (b : Bool)
  | tNull
  | tThis
  | tSuper
  deriving DecidableEq

inductive TVarOrigin where
  | localVariable | argument | forVariable | patternVariable | catchVariable | localFunction
  deriving DecidableEq, Repr

inductive TVarKind where
  | vUser (origin : TVarOrigin)
  | vGenerated
  | vInlined
  | vInlinedConstructorVariable
  | vExtractorVariable
  deriving DecidableEq, Repr

/-- A local variable. Variables are compared by identity in the source: here by `vId`. -/
structure TVar where
  vId : Nat
  vName : String
  vType : HType
  vKind : TVarKind
  vMeta : Metadata
  vCaptured : Bool

inductive ModuleType where
  | tClassDecl (c : Path)
  | tEnumDecl (e : Path)
  | tTypeDecl (t : Path)
  | tAbstractDecl (a : Path)
  deriving DecidableEq, Repr

inductive TFieldAccess where
  | fInstance (c : Path) (cf : String)
  | fStatic (c : Path) (cf : String)
  | fAnon (cf : String)
  | fDynamic (s : String)
  | fClosure (c : Option Path) (cf : String)
  | fEnum (en : Path) (ef : String)
  deriving DecidableEq, Repr

inductive WhileFlag where
  | normalWhile | doWhile
  deriving DecidableEq, Repr

/-- `texpr_expr`. -/
inductive TExpr where
  | tConst (c : TConstant)
  | tLocal (v : TVar)
  | tArray (e1 e2 : TExpr)
  | tBinop (op : Binop) (e1 e2 : TExpr)
  | tField (e : TExpr) (fa : TFieldAccess)
  | tTypeExpr (m : ModuleType)
  | tParenthesis (e : TExpr)
  | tObjectDecl (fl : List (String × TExpr))
  | tArrayDecl (el : List TExpr)
  | tCall (e : TExpr) (el : List TExpr)
  | tNew (c : Path) (el : List TExpr)
  | tUnop (op : Unop) (flag : UnopFlag) (e : TExpr)
  | tFunction (tfArgs : List (TVar × Option TExpr)) (tfType : HType) (tfExpr : TExpr)
  | tVar (v : TVar) (eo : Option TExpr)
  | tBlock (el : List TExpr)
  | tFor (v : TVar) (e1 e2 : TExpr)
  | tIf (e e1 : TExpr) (e2 : Option TExpr)
  | tWhile (e1 e2 : TExpr) (flag : WhileFlag)
  | tSwitch (e : TExpr) (cases : List (List TExpr × TExpr)) (default : Option TExpr)
  | tTry (e : TExpr) (catches : List (TVar × TExpr))
  | tReturn (eo : Option TExpr)
  | tBreak
  | tContinue
  | tThrow (e : TExpr)
  | tCast (e : TExpr) (m : Option ModuleType)
  | tMeta (m : MetadataEntry) (e : TExpr)
  | tEnumParameter (e : TExpr) (ef : String) (i : Nat)
  | tEnumIndex (e : TExpr)
  | tIdent (s : String)

inductive MethodKind where
  | methNormal | methInline | methDynamic | methMacro
  deriving DecidableEq, Repr

inductive FieldKind where
  | var
  | method (mk : MethodKind)
  deriving DecidableEq, Repr

structure TClassField where
  cfName : String
  cfPos : Pos
  cfMeta : Metadata
  cfKind : FieldKind
  cfExpr : Option TExpr
  cfExtern : Bool
  cfFinal : Bool

structure TClass where
  clPath : Path
  clMeta : Metadata
  clSuper : Option TClass
  clFields : List TClassField
  clOrderedStatics : List TClassField
  clOrderedFields : List TClassField
  clConstructor : Option TClassField

/-- The chain of super classes, nearest first. -/
@[grind =] def TClass.supers : TClass → List TClass
  | ⟨_, _, none, _, _, _, _⟩ => []
  | ⟨_, _, some c, _, _, _, _⟩ => c :: c.supers

theorem TClass.supers_trans {c c' c'' : TClass} (h : c' ∈ c.supers) (h' : c'' ∈ c'.supers) :
    c'' ∈ c.supers := by
  fun_induction TClass.supers c with
  | case1 => cases h
  | case2 clPath clMeta c clFields clOrderedStatics clOrderedFields clConstructor ih =>
    rcases List.mem_cons.mp h with rfl | h
    · exact List.mem_cons_of_mem _ h'
    · exact List.mem_cons_of_mem _ (ih h)

end Haxe.Source.Core
