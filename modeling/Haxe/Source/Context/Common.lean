import Mathlib.Data.String.Defs

/-!
# Scoping of local variables on the platforms

The part of `context/common.ml` that the renaming of local variables reads: the field
`pf_scoping` of the platform configurations.
-/

namespace Haxe.Source.Context

inductive Platform where
  | cross | js | lua | neko | flash | php | cpp | cs | java | python | hl | eval
  deriving DecidableEq, Repr

inductive VarScope where
  | functionScope | blockScope
  deriving DecidableEq, Repr

inductive VarScopingFlag where
  | varHoisting
  | noShadowing
  | noCatchVarShadowing
  | reserveCurrentTopLevelSymbol
  | reserveAllTopLevelSymbols
  | reserveAllTypesFlat
  | reserveNames (names : List String)
  | switchCasesNoBlocks
  deriving DecidableEq, Repr

structure VarScopingConfig where
  vsFlags : List VarScopingFlag
  vsScope : VarScope
  deriving DecidableEq, Repr

/-- What `get_config` looks at: the platform, an ECMAScript version of at least 6, and two
defines. -/
structure Com where
  platform : Platform
  es6 : Bool
  jsUnflatten : Bool
  jvm : Bool

/-- `pf_scoping` of `default_config`. -/
def defaultScoping : VarScopingConfig := ⟨[], .blockScope⟩

/-- `pf_scoping` of `get_config com`. -/
def getScoping (com : Com) : VarScopingConfig :=
  match com.platform with
  | .cross | .lua | .hl | .eval => defaultScoping
  | .js =>
    { vsScope := if com.es6 then .blockScope else .functionScope
      vsFlags := (if com.jsUnflatten then .reserveAllTopLevelSymbols else .reserveAllTypesFlat) ::
        if com.es6 then [.noShadowing, .switchCasesNoBlocks]
        else [.varHoisting, .noCatchVarShadowing] }
  | .neko => { defaultScoping with vsFlags := [.reserveAllTopLevelSymbols] }
  | .flash | .php | .python => { vsScope := .functionScope, vsFlags := [.varHoisting] }
  | .cpp => { defaultScoping with vsFlags := [.noShadowing] }
  | .cs => { vsScope := .functionScope, vsFlags := [.noShadowing] }
  | .java =>
    if com.jvm then defaultScoping
    else
      { vsScope := .functionScope
        vsFlags := [.noShadowing, .reserveAllTopLevelSymbols, .reserveNames ["_"]] }

/-- Where variables live in blocks they are neither hoisted nor kept apart from catch
variables. -/
theorem getScoping_block {com : Com} (block : (getScoping com).vsScope = .blockScope) :
    .varHoisting ∉ (getScoping com).vsFlags ∧ .noCatchVarShadowing ∉ (getScoping com).vsFlags := by
  obtain ⟨platform, es6, jsUnflatten, jvm⟩ := com
  revert block
  cases platform <;> revert es6 jsUnflatten jvm <;> decide

end Haxe.Source.Context
