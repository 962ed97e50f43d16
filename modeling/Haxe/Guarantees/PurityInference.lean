import Haxe.Source.Optimization.PurityRuns

/-!
# Purity inference

After a run without an error, a field that is neither impure nor declared pure has a body
that does nothing impure, and calls only fields that are not impure either. The user may
vouch for more than a whole field: an expression marked `@:pure` is not looked into, a
plain `__js__` identifier may be called, and so may whatever is declared pure, also when
it is tainted afterwards because its code may be replaced.
-/

namespace Haxe.Guarantees.PurityInference

open Source.Core Source.Context Source.Optimization.Purity
open Source.Typing (nullPos)
open Theory

/-- Some field of that name is declared with the purity `p`. -/
def DeclaredAs (P : Program) (id : FieldId) (p : Purity) : Prop :=
  ∃ f ∈ allFields P.types, getFieldId f.1 f.2 = id ∧ getPurity f.1 f.2 = .ok p

/-- What the table of nodes says about the fields of the program. -/
structure Sound (P : Program) (out : NodeLut) : Prop where
  bodies : ∀ site ∈ P.sites, isImpure out site.id = false →
    getPurity site.c site.cf ≠ .ok .pure →
    ∃ body, site.cf.cfExpr = some body ∧ ∀ s, Visible s body →
      Allowed P.types site.isCtor site.c
        (fun id => isImpure out id = false ∨ DeclaredAs P id .pure ∧ Exposed P id) s
  overridable : ∀ site ∈ P.sites, site.Overridable → isImpure out site.id
  supers : ∀ site ∈ P.sites, isImpure out site.id → ¬ DeclaredAs P site.id .impure →
    ∀ c ∈ site.c.supers, ∀ cf, findField site.cf.cfName c = some cf →
      isImpure out (getFieldId c cf)

/-- A recorded callee is pure in the end, if its caller is and nobody vouched for it. -/
theorem recorded_pure {P : Program} {lut : NodeLut} {caller callee : FieldId}
    (h : Between P lut) (notImpure : isImpure lut caller = false)
    (recorded : Recorded lut caller callee) :
    isImpure lut callee = false ∨ DeclaredAs P callee .pure ∧ Exposed P callee := by
  obtain ⟨n, found, reason⟩ := recorded
  by_cases impure : n.pnPurity = .impure
  · have node := h.valid callee n found
    rcases reason with declared | ⟨p, declared⟩ | dependent
    · exact Or.inr ⟨⟨_, node.field, node.key, declared⟩, node.exposed impure declared⟩
    · obtain ⟨q, atFirst, later⟩ := node.purity
      obtain rfl := Except.ok.inj (declared.symm.trans atFirst)
      rcases later with same | ⟨-, never⟩
      · rw [impure] at same
        cases same
      · exact absurd rfl (never p)
    · rcases h.spread callee n found impure with declared | ⟨dependents, -⟩
      · rw [node.quiet declared] at dependent
        cases dependent
      · rw [dependents caller dependent] at notImpure
        cases notImpure
  · left
    simp [isImpure, found, impure]

/-- Before the metadata is written back. -/
theorem between_sound {P : Program} {lut : NodeLut} (h : Between P lut)
    (seen : ∀ site ∈ P.sites, Seen P lut site) : Sound P lut where
  bodies site member notImpure notPure := by
    rcases seen site member with impure | ⟨-, declared | ⟨body, found, allowed⟩⟩
    · rw [impure] at notImpure
      cases notImpure
    · exact absurd declared notPure
    · exact ⟨body, found, fun s visible =>
        (allowed s visible).mono fun id => recorded_pure h notImpure⟩
  overridable site member open' := by
    rcases seen site member with impure | ⟨fixed, -⟩
    · exact impure
    · exact absurd open' fixed
  supers site member impure notDeclared c above cf field := by
    obtain ⟨n, found, purity⟩ := isImpure_iff.mp impure
    have node := h.valid _ n found
    rcases h.spread _ n found purity with declared | ⟨-, supers⟩
    · exact absurd ⟨_, node.field, node.key, declared⟩ notDeclared
    · have sameClass := P.distinctClasses _ node.field _ (mem_sites member)
        (congrArg Prod.fst node.key)
      have sameName : n.pnField.cfName = site.cf.cfName := congrArg Prod.snd node.key
      rw [show n.pnClass = site.c from sameClass, sameName] at supers
      exact supers c above cf field

/-- `infer` raises one of its two errors or ends in a sound table. -/
theorem infer_sound (P : Program) : Ends (Sound P) Errors P.infer := by
  refine (types_ends P).bind fun lut ⟨between, seen⟩ => ?_
  have same : ∀ id, isImpure (fun id => (lut id).map Program.markInferredPure) id =
      isImpure lut id := by
    intro id
    cases found : lut id with
    | none => simp [isImpure, found]
    | some n =>
      simp only [isImpure, found, Option.map_some, Program.markInferredPure]
      split <;> rfl
  have sound := between_sound between seen
  refine ⟨?_, ?_, ?_⟩
  · simpa only [same] using sound.bodies
  · simpa only [same] using sound.overridable
  · simpa only [same] using sound.supers

def vouchedPath : Path := ([], "Vouched")
def basePath : Path := ([], "Base")
def derivedPath : Path := ([], "Derived")

def pureMeta : MetadataEntry := ⟨.pure, [], nullPos⟩
def impureMeta : MetadataEntry := ⟨.pure, [.ident "false" nullPos], nullPos⟩

/-- `@:pure throw null`. -/
def trustedBody : TExpr := .tMeta pureMeta (.tThrow (.tConst .tNull))

/-- `__js__("x")`. -/
def rawBody : TExpr := .tCall (.tIdent "__js__") [.tConst (.tString "x")]

/-- `Vouched.replaced()`. -/
def callerBody : TExpr :=
  .tCall (.tField (.tTypeExpr (.tClassDecl vouchedPath)) (.fStatic vouchedPath "replaced")) []

def function (name : String) (metas : Metadata) (kind : MethodKind) (body : TExpr) :
    TClassField :=
  ⟨name, nullPos, metas, .method kind, some (.tFunction [] .tDynamic body), false, false⟩

def trusted : TClassField := function "trusted" [] .methNormal trustedBody
def raw : TClassField := function "raw" [] .methNormal rawBody
def caller : TClassField := function "caller" [] .methNormal callerBody
def replaced : TClassField := function "replaced" [pureMeta] .methDynamic (.tConst .tNull)

/-- A class whose functions do what nobody checks. -/
def vouchedClass : TClass :=
  ⟨vouchedPath, [], none, [], [trusted, raw, caller, replaced], [], none⟩

/-- `extern class Base { @:pure final function f():Int; }`. -/
def baseClass : TClass :=
  let f : TClassField := ⟨"f", nullPos, [pureMeta], .method .methNormal, none, true, true⟩
  ⟨basePath, [], none, [f], [], [f], none⟩

/-- `extern class Derived extends Base { @:pure(false) static function f():Int; }`. -/
def derivedClass : TClass :=
  ⟨derivedPath, [], some baseClass, [],
    [⟨"f", nullPos, [impureMeta], .method .methNormal, none, true, false⟩], [], none⟩

def vouched : Program where
  types := [vouchedClass, baseClass, derivedClass]
  distinctClasses := by
    simp [allFields, TClass.supers, classFields, vouchedClass, baseClass, derivedClass,
      vouchedPath, basePath, derivedPath]
  distinctFields := by
    simp [allFields, TClass.supers, classFields, vouchedClass, baseClass, derivedClass,
      vouchedPath, basePath, derivedPath, trusted, raw, caller, replaced, function]
  qualified := by
    have const (c : TConstant) : Qualified (.tConst c) := .of_children nofun nofun
    have type (m : ModuleType) : Qualified (.tTypeExpr m) := .of_children nofun nofun
    have ident (s : String) : Qualified (.tIdent s) := .of_children nofun nofun
    have single {e e' : TExpr} (children : e.children = [e']) (below : Qualified e')
        (here : ∀ r c cf, e ≠ .tField r (.fStatic c cf)) : Qualified e :=
      .of_children (fun r c cf same => absurd same (here r c cf)) (by simpa [children] using below)
    have callee : Qualified (.tField (.tTypeExpr (.tClassDecl vouchedPath))
        (.fStatic vouchedPath "replaced")) := by
      refine .of_children ?_ (by simpa [TExpr.children] using type _)
      rintro r c cf ⟨⟩
      exact ⟨_, rfl⟩
    simp only [allFields, TClass.supers, classFields, vouchedClass, baseClass, derivedClass,
      trusted, raw, caller, replaced, function, List.flatMap_cons, List.flatMap_nil]
    simp only [List.nil_append, List.append_nil, List.cons_append, Option.toList_none,
      List.map_cons, List.map_nil, List.mem_cons, List.not_mem_nil, or_false, forall_eq_or_imp,
      forall_eq, Option.some.injEq, forall_eq', reduceCtorEq, false_implies, implies_true, and_true]
    refine ⟨?_, ?_, ?_, ?_⟩
    · exact single rfl (single rfl (single rfl (const _) nofun) nofun) nofun
    · exact single rfl (.of_children nofun (by simp [TExpr.children, rawBody, ident, const])) nofun
    · exact single rfl (.of_children nofun (by simp [TExpr.children, callerBody, callee])) nofun
    · exact single rfl (const _) nofun

/-- What a body would satisfy if nobody could vouch for anything: no expression is passed
over, only fields are called, and the callees are not impure. -/
def StrictBody (P : Program) (out : NodeLut) (site : Site) : Prop :=
  isImpure out site.id = false → getPurity site.c site.cf ≠ .ok .pure →
    ∃ body, site.cf.cfExpr = some body ∧ ∀ s, TExpr.Subexpr s body →
      (∀ name el, s ≠ .tCall (.tIdent name) el) ∧
      Allowed P.types site.isCtor site.c (fun id => isImpure out id = false) s

/-- Impurity reaches the super classes also from a field that is declared impure. -/
def StrictSupers (out : NodeLut) (site : Site) : Prop :=
  isImpure out site.id → ∀ c ∈ site.c.supers, ∀ cf, findField site.cf.cfName c = some cf →
    isImpure out (getFieldId c cf)

/-- What `infer` says of the six fields. -/
theorem vouched_infer : ∃ out, vouched.infer = .ok out ∧
    isImpure out (vouchedPath, "trusted") = false ∧ isImpure out (vouchedPath, "raw") = false ∧
    isImpure out (vouchedPath, "caller") = false ∧ isImpure out (vouchedPath, "replaced") ∧
    isImpure out (basePath, "f") = false ∧ isImpure out (derivedPath, "f") := by
  have run : (match vouched.infer with
      | .ok out => [isImpure out (vouchedPath, "trusted"), isImpure out (vouchedPath, "raw"),
          isImpure out (vouchedPath, "caller"), isImpure out (vouchedPath, "replaced"),
          isImpure out (basePath, "f"), isImpure out (derivedPath, "f")]
      | .error _ => []) = [false, false, false, true, false, true] := by
    decide +kernel
  cases result : vouched.infer with
  | error e => simp [result] at run
  | ok out =>
    rw [result] at run
    refine ⟨out, rfl, ?_⟩
    simpa using run

/-- Neither the bodies nor the super classes are as strict as that. -/
theorem vouched_not_strict : ∃ out, vouched.infer = .ok out ∧
    (∃ site ∈ vouched.sites, site.cf = trusted ∧ ¬ StrictBody vouched out site) ∧
    (∃ site ∈ vouched.sites, site.cf = raw ∧ ¬ StrictBody vouched out site) ∧
    (∃ site ∈ vouched.sites, site.cf = caller ∧ ¬ StrictBody vouched out site) ∧
    ∃ site ∈ vouched.sites, site.c = derivedClass ∧ ¬ StrictSupers out site := by
  obtain ⟨out, run, notTrusted, notRaw, notCaller, replacedImpure, notBase, derivedImpure⟩ :=
    vouched_infer
  have maybe (name : String) (body : TExpr) :
      getPurity vouchedClass (function name [] .methNormal body) ≠ .ok .pure := by
    intro pure
    cases pure
  have inBody {s body : TExpr} (sub : TExpr.Subexpr s body) :
      TExpr.Subexpr s (.tFunction [] .tDynamic body) :=
    .child (List.mem_singleton_self body) sub
  refine ⟨out, run, ⟨⟨false, true, vouchedClass, trusted⟩, ?_, rfl, ?_⟩,
    ⟨⟨false, true, vouchedClass, raw⟩, ?_, rfl, ?_⟩,
    ⟨⟨false, true, vouchedClass, caller⟩, ?_, rfl, ?_⟩,
    ⟨⟨false, true, derivedClass, derivedClass.clOrderedStatics.head (by decide)⟩, ?_, rfl, ?_⟩⟩
  · simp [Program.sites, vouched, classSites, vouchedClass]
  · intro strict
    obtain ⟨body, ⟨⟩, all⟩ := strict notTrusted (maybe _ _)
    exact (all _ (inBody (.child (List.mem_singleton_self _) .here))).2
  · simp [Program.sites, vouched, classSites, vouchedClass]
  · intro strict
    obtain ⟨body, ⟨⟩, all⟩ := strict notRaw (maybe _ _)
    exact (all _ (inBody .here)).1 _ _ rfl
  · simp [Program.sites, vouched, classSites, vouchedClass]
  · intro strict
    obtain ⟨body, ⟨⟩, all⟩ := strict notCaller (maybe _ _)
    obtain ⟨f, found, notReplaced⟩ := (all _ (inBody .here)).2
    obtain rfl : (vouchedClass, replaced) = f := by
      refine Option.some.inj (Eq.trans ?_ found)
      rfl
    change isImpure out (vouchedPath, "replaced") = false at notReplaced
    rw [replacedImpure] at notReplaced
    cases notReplaced
  · simp [Program.sites, vouched, classSites, vouchedClass, baseClass, derivedClass]
  · intro strict
    have := strict derivedImpure baseClass (by simp [derivedClass, TClass.supers]) _ rfl
    change isImpure out (basePath, "f") = true at this
    rw [notBase] at this
    cases this

end Haxe.Guarantees.PurityInference
