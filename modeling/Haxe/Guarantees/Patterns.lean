import Haxe.Source.Typing.UselessSoundness
import Haxe.Source.Typing.Matching
import Haxe.Source.Typing.CompileTop

/-!
# Warnings about unused patterns

A warning of `check` is justified when what it is about is never reached. All warnings
are, as long as the field patterns for one type list the same fields; otherwise the
columns of two field patterns that `Constructor.equal` identifies do not line up.
-/

namespace Haxe.Guarantees.UnusedPatterns
open Haxe.Source.Typing Pattern Semantics UselessPatterns

variable {Value Ty : Type} {S : Semantics Value} {ρ : Env Value} {sig : Signature Ty}

/-- The cases that `check` keeps: those without a guard. -/
def unguarded (cases : List CaseRow) : List CaseRow := cases.filter fun case => !case.1.guarded

def Taken (S : Semantics Value) (ρ : Env Value) (cases : List CaseRow)
    (segs : List (List Value)) : Prop :=
  ∃ case ∈ cases, S.Matches ρ case.2 segs

/-- Nothing reaches the case, or the sub-pattern, that the warning is about: whatever
matches it is taken by an earlier unguarded case or an earlier alternative. -/
inductive Justified (S : Semantics Value) (ρ : Env Value) (earlier : List CaseRow)
    (case : CaseRow) : String × Pos → Prop
  | unusedCase (never : ∀ segs, S.Matches ρ case.2 segs → Taken S ρ earlier segs) :
    Justified S ρ earlier case ("This case is unused", case.1.casePos)
  | unusedPattern {p : Pos} {reaching : List Pattern} {alternatives : List (List Pattern)}
    (narrow : NarrowRow case.2 p reaching alternatives)
    (never : ∀ segs, S.Matches ρ reaching segs →
      Taken S ρ earlier segs ∨ ∃ before ∈ alternatives, S.Matches ρ before segs) :
    Justified S ρ earlier case ("This pattern is unused", p)

theorem Justified.of_unusedCase {earlier : List CaseRow} {case : CaseRow} {p : Pos}
    (justified : Justified S ρ earlier case ("This case is unused", p)) :
    case.1.casePos = p ∧ ∀ segs, S.Matches ρ case.2 segs → Taken S ρ earlier segs := by
  generalize same : (("This case is unused", p) : String × Pos) = warning at justified
  cases justified with
  | unusedCase never => exact ⟨(Prod.mk.inj same).2.symm, never⟩
  | unusedPattern => simp at same

/-- `check_case` returns, and what it warns about is justified. -/
theorem checkCase_justified (uniform : sig.UniformFields) {columns : List (Column Ty)}
    {earlier : List CaseRow} (earlierTyped : ∀ row ∈ earlier, sig.RowTyped columns row.2)
    {case : CaseRow} (typed : sig.RowTyped columns case.2) :
    ∃ warnings, checkCase earlier case = some warnings ∧
      ∀ warning ∈ warnings, Justified S ρ earlier case warning := by
  have rowsTyped : TypedRows sig columns [] [] (earlier.map fun row => (row.2, [], [])) := by
    intro row member
    obtain ⟨source, sourceMember, rfl⟩ := List.mem_map.mp member
    exact ⟨earlierTyped source sourceMember, rfl, rfl⟩
  obtain ⟨answer, run, sound⟩ := u'_sound uniform S ρ rowsTyped case.2 [] [] typed rfl rfl
    (by simp [Alternatives])
  have covered : ∀ {segs}, Covered S ρ (earlier.map fun row => (row.2, [], [])) segs [] [] →
      Taken S ρ earlier segs := by
    rintro segs ⟨row, member, matched, -⟩
    obtain ⟨source, sourceMember, rfl⟩ := List.mem_map.mp member
    exact ⟨source, sourceMember, matched⟩
  have run : u' (earlier.map Prod.snd) (copy (earlier.map Prod.snd))
      (copy (earlier.map Prod.snd)) case.2 [] [] = some answer := by
    simpa [copy, Function.comp_def] using run
  cases answer with
  | true => exact ⟨[], by simp [checkCase, run], by simp⟩
  | false =>
    refine ⟨[("This case is unused", case.1.casePos)], by simp [checkCase, run], ?_⟩
    intro warning member
    obtain rfl := List.mem_singleton.mp member
    exact .unusedCase fun segs matched =>
      covered (sound segs [] [] matched (matches_nil.mpr rfl) (matches_nil.mpr rfl))
  | pos p =>
    refine ⟨[("This pattern is unused", p)], by simp [checkCase, run], ?_⟩
    intro warning member
    obtain rfl := List.mem_singleton.mp member
    rcases sound with ⟨reaching, alternatives, narrow, reach⟩ | ⟨_, _, narrow, -⟩
    · exact .unusedPattern narrow fun segs matched =>
        (reach segs [] [] matched (matches_nil.mpr rfl) (matches_nil.mpr rfl)).imp_left covered
    · cases narrow

theorem checkFrom_justified (uniform : sig.UniformFields) {columns : List (Column Ty)}
    {before cases : List CaseRow} (typed : ∀ row ∈ before ++ cases, sig.RowTyped columns row.2) :
    ∃ warnings, checkFrom (unguarded before) cases = some warnings ∧
      ∀ warning ∈ warnings, ∃ first case rest, before ++ cases = first ++ case :: rest ∧
        Justified S ρ (unguarded first) case warning := by
  induction cases generalizing before with
  | nil => exact ⟨[], rfl, by simp⟩
  | cons case cases ih =>
    have earlierTyped : ∀ row ∈ unguarded before, sig.RowTyped columns row.2 := fun row member =>
      typed row (List.mem_append_left _ (List.mem_filter.mp member).1)
    obtain ⟨warnings, here, justified⟩ :=
      checkCase_justified (S := S) (ρ := ρ) uniform earlierTyped (typed case (by simp))
    have rowsTyped : ∀ row ∈ (before ++ [case]) ++ cases, sig.RowTyped columns row.2 := by
      simpa using typed
    obtain ⟨later, rest, laterJustified⟩ := ih rowsTyped
    have next : (if case.1.guarded then unguarded before else unguarded before ++ [case]) =
        unguarded (before ++ [case]) := by
      cases guarded : case.1.guarded <;> simp [unguarded, guarded]
    refine ⟨warnings ++ later, by simp [checkFrom, here, next, rest], ?_⟩
    intro warning member
    rcases List.mem_append.mp member with member | member
    · exact ⟨before, case, cases, rfl, justified warning member⟩
    · simpa using laterJustified warning member

/-- Integers, and a structure type with a variable `a` and a method `foo`. -/
inductive SampleType where
  | int
  | record
  deriving DecidableEq

/-- The constructors of the two types; `fields` are the field patterns that are written. -/
@[grind =]
def sampleArgs (fields : List (List String)) : SampleType → Constructor → Option (List SampleType)
  | .int, .conConst (.tInt _) => some []
  | .record, .conFields names =>
    if names ∈ fields then some (names.map fun _ => .int) else none
  | _, _ => none

theorem sampleArgs_arity (fields : List (List String)) (t : SampleType) (con : Constructor)
    (ts : List SampleType) (typed : sampleArgs fields t con = some ts) :
    ts.length = con.arity := by
  revert typed
  fun_cases sampleArgs fields t con <;> rintro ⟨⟩ <;> simp [Constructor.arity]

def sampleSignature (fields : List (List String)) : Signature SampleType :=
  Signature.ofArgs (sampleArgs fields) (sampleArgs_arity fields) (fun _ => .int) .int

def sampleSemantics : Semantics HxValue :=
  HxValue.semantics (fun _ _ _ => false) (fun _ => .null) (fun _ _ => .null)

def intPattern (i : Int) (p : Pos) : Pattern := patConstructor (.conConst (.tInt i)) [] p

def samplePos (pmin : Int) : Pos := { pfile := "Main.hx", pmin := pmin, pmax := pmin + 10 }

def sampleCase (pmin : Int) (first second : Pattern) : CaseRow :=
  ({ casePos := samplePos pmin, guarded := false }, [patTuple [first, second] (samplePos pmin)])

/-- `switch [x, i] { case [{a: 1}, 2]: …; case [{a: 1 | 2}, 2]: … }` -/
def alternativeCases : List CaseRow :=
  [sampleCase 10 (patConstructor (.conFields ["a"]) [intPattern 1 (samplePos 12)] (samplePos 11))
      (intPattern 2 (samplePos 13)),
    sampleCase 20 (patConstructor (.conFields ["a"]) [patOr (intPattern 1 (samplePos 22))
      (intPattern 2 (samplePos 23)) (samplePos 22)] (samplePos 21)) (intPattern 2 (samplePos 24))]

/-- `switch [x, i] { case [{foo: f}, 5]: …; case [{a: 1}, 2]: … }` -/
def methodCases : List CaseRow :=
  [sampleCase 10 (patConstructor (.conFields ["a", "foo"])
      [patAny (samplePos 11), patVariable 7 (samplePos 12)] (samplePos 11))
      (intPattern 5 (samplePos 13)),
    sampleCase 20 (patConstructor (.conFields ["a"]) [intPattern 1 (samplePos 22)] (samplePos 21))
      (intPattern 2 (samplePos 24))]

/-- The value `[{a: 1, foo: …}, 2]`. -/
def methodValue : List (List HxValue) :=
  [[.object [("a", .int 1), ("foo", .int 0)], .int 2]]

end Haxe.Guarantees.UnusedPatterns

/-!
## Compiled patterns and the first case

A tree that `compile` builds runs the first case in source order that matches and whose
guard holds, as long as no later case tests for `null` where the first has a wildcard:
rows for `null` are compiled in front of all wildcards.
-/

namespace Haxe.Guarantees.PatternCompilation
open Haxe.Source.Typing Pattern Semantics Compile

variable {Value Ty : Type} {S : Semantics Value} {P : TVar → Prop} {n0 : Nat} {ctx : Context Ty}
variable {column : Column Ty} {cases : List (Case × Pattern)} {subjects : List (Subject Ty)}

/-- `Null<Int>`. -/
inductive SampleType where
  | nullableInt
  deriving DecidableEq

@[grind =] def sampleArgs : SampleType → Constructor → Option (List SampleType)
  | .nullableInt, .conConst (.tInt _) => some []
  | .nullableInt, .conConst .tNull => some []
  | _, _ => none

theorem sampleArgs_arity (t : SampleType) (con : Constructor) (ts : List SampleType)
    (typed : sampleArgs t con = some ts) : ts.length = con.arity := by
  revert typed
  fun_cases sampleArgs t con <;> rintro ⟨⟩ <;> simp [Constructor.arity]

def sampleContext : Context SampleType where
  sig := Signature.ofArgs sampleArgs sampleArgs_arity (fun _ => .nullableInt) .nullableInt
  order := ⟨id, Iff.rfl⟩
  isExplicitNull _ := true

def sampleSemantics : Semantics HxValue :=
  HxValue.semantics (fun _ _ _ => false) (fun _ => .null) (fun _ _ => .null)

theorem sample_uniform : sampleContext.sig.UniformFields := by
  rintro ⟨⟩ fields fields' ts ts' typed typed'
  simp [sampleContext, Signature.ofArgs, sampleArgs] at typed

theorem sample_disjoint : sampleSemantics.Disjoint sampleContext.sig := by
  have consts : ∀ con, (sampleArgs .nullableInt con).isSome ∨ con = .conConst .tNull →
      (∃ i, con = .conConst (.tInt i)) ∨ con = .conConst .tNull := by
    intro con tested
    fun_cases sampleArgs .nullableInt con <;> simp_all [sampleArgs]
  rintro ⟨⟩ con con' tested tested' v seen seen'
  rcases consts con tested with ⟨i, rfl⟩ | rfl <;> rcases consts con' tested' with ⟨j, rfl⟩ | rfl <;>
    cases v <;> simp_all [sampleSemantics, HxValue.semantics, HxValue.view, Constructor.equal]

def intPattern (i : Int) : Pattern := patConstructor (.conConst (.tInt i)) [] nullPos

def nullPattern : Pattern := patConstructor (.conConst .tNull) [] nullPos

/-- The subject is the local variable 0. -/
def sampleSubject : Subject SampleType := ⟨.tLocal 0, .nullableInt⟩

def nullEnv : Env HxValue := fun _ => .null

/-- `switch x { case 1: …; case null: …; case v: … }` -/
def orderedSwitch : List (Case × Pattern) :=
  [(⟨0, none⟩, intPattern 1), (⟨1, none⟩, nullPattern), (⟨2, none⟩, patVariable 1 nullPos)]

/-- `switch x { case 1: …; case _: …; case null: … }` -/
def nullLast : List (Case × Pattern) :=
  [(⟨0, none⟩, intPattern 1), (⟨1, none⟩, patAny nullPos), (⟨2, none⟩, nullPattern)]

def nullLastTree : Dt SampleType :=
  .guardNull sampleSubject (.leaf ⟨2, none⟩)
    (.switch sampleSubject [(.conConst (.tInt 1), true, .bind [] (.leaf ⟨0, none⟩))]
      (.leaf ⟨1, none⟩))

theorem compileTop_nullLast :
    compileTop sampleContext 1 [sampleSubject] nullLast = .ok nullLastTree := by
  have column : getColumnSigma sampleSubject.expr [] []
      (nullLast.map fun c => (⟨c.1, [], [c.2]⟩ : Row)) =
        .ok ([(.conConst (.tInt 1), true)], [⟨⟨2, none⟩, [], []⟩]) := by
    simp [nullLast, intPattern, nullPattern, getColumnSigma, head, replace]
  have prepared : prepare [sampleSubject]
      (nullLast.map fun c => (⟨c.1, [], [c.2]⟩ : Row)) =
        ([sampleSubject], nullLast.map fun c => (⟨c.1, [], [c.2]⟩ : Row)) := by
    simp [nullLast, intPattern, nullPattern, prepare, expand, expandRow, selectColumn, columnIndex]
  have run : compile sampleContext 1 [sampleSubject]
      (nullLast.map fun c => (⟨c.1, [], [c.2]⟩ : Row)) = .ok (nullLastTree, 1) := by
    refine (compile_of_column (by simp [intPattern, isWildcardPattern]) prepared column).trans ?_
    rw [compileSwitch]
    simp [sampleContext, nullLast, intPattern, nullPattern, compileCases, getSubSubjects,
      genLocals, specialize, specializeRow, Constructor.equal, Constructor.arity, compile,
      compileLeaf, leafBindings, Compile.default, defaultRow, bind, Except.bind, nullLastTree]
  have subjects : topSubjects 1 [sampleSubject] = ([sampleSubject], [], 1) := rfl
  have cases : nullLast = (⟨0, none⟩, intPattern 1) :: nullLast.tail := rfl
  rw [compileTop, subjects]
  rw [cases] at run ⊢
  simp only
  rw [run]
  rfl

end Haxe.Guarantees.PatternCompilation
