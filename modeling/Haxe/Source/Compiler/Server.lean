import Mathlib.Data.Fintype.Card
import Mathlib.Data.Finset.Filter

/-!
# Checks of the compilation server

`check_module`, `add_modules` and `type_module` of `compiler/server.ml`, over the modules of the
cache. What the file system, the other parts of the compiler and the policies say is the same for
every request of a compilation; the marks and the dirty flags of the modules are the state.
-/

namespace Haxe.Source.Server

/-- `module_kind` -/
inductive ModuleKind where
  | mCode
  | mMacro
  | mFake
  | mExtern
  | mImport
  deriving DecidableEq, Repr

/-- `module_check_policy` -/
inductive CheckPolicy where
  | noCheckFileTimeModification
  | checkFileContentModification
  | noCheckDependencies
  | noCheckShadowing
  deriving DecidableEq, Repr

/-- The fields of `m_extra` that no request changes. -/
structure ModuleExtra (Module : Type) where
  kind : ModuleKind
  time : Int
  checkPolicy : List CheckPolicy
  deps : List Module
  deriving Repr

/-- What is raised in a check: `Not_found`, or an exception that the check does not handle. -/
inductive Failure where
  | notFound
  | other
  deriving DecidableEq, Repr

/-- What the checks of a compilation read. The types of declarations are compared as a whole. -/
structure World (Module Decls : Type) where
  extra : Module → ModuleExtra Module
  inMacro : Bool
  complete : Bool
  doNotCheckModules : Bool
  displayMode : Bool
  /-- The extension of the file is `hx`. -/
  isHaxe : Module → Bool
  fileTime : Module → Int
  /-- The times of the files in the place of the module in the changed directories, of the
  context of macros or of the other one. -/
  shadowTimes : Bool → Module → List Int
  /-- What the loaders of extern types give, and whether it is the file of the module. -/
  loadExternType : Module → List (Option Bool)
  cachedDecls : Module → Option Decls
  parseModule : Module → Except Failure Decls

/-- The server's counters with the marks, the dirty flags and the steps in which the modules were
added. A module stands for its path. -/
structure State (Module : Type) where
  markLoop : Nat
  compilationStep : Nat
  compilationMark : Nat
  mark : Module → Nat
  dirty : Module → Option Module
  added : Module → Nat

variable {Module Decls : Type}

namespace State

variable [DecidableEq Module]

def setMark (s : State Module) (m : Module) (mark : Nat) : State Module :=
  { s with mark := fun x => if x = m then mark else s.mark x }

def setDirty (s : State Module) (m path : Module) : State Module :=
  { s with dirty := fun x => if x = m then some path else s.dirty x }

def setAdded (s : State Module) (m : Module) : State Module :=
  { s with added := fun x => if x = m then s.compilationStep else s.added x }

end State

/-- `type_module` begins a new mark. -/
def State.nextMark (s : State Module) : State Module := { s with markLoop := s.markLoop + 1 }

namespace World

variable (w : World Module Decls)

/-- The parsed declarations differ from the cached ones. -/
def contentChanged [DecidableEq Decls] (m : Module) : Except Failure Bool :=
  match w.cachedDecls m with
  | none => .ok true
  | some cached =>
    match w.parseModule m with
    | .ok parsed => .ok (decide (cached ≠ parsed))
    | .error .notFound => .ok true
    | .error .other => .error .other

def checkModuleShadowing (macros : Bool) (m : Module) : Except Failure Unit :=
  if (w.shadowTimes macros m).any fun time => decide (time > (w.extra m).time)
  then .error .notFound else .ok ()

/-- The first loader that knows the module decides. -/
def checkLoaders : List (Option Bool) → Except Failure Unit
  | [] => .error .notFound
  | none :: loaders => checkLoaders loaders
  | some sameFile :: _ => if sameFile then .ok () else .error .notFound

def checkModulePath (m : Module) : Except Failure Unit :=
  match (w.extra m).kind with
  | .mFake | .mImport => .ok ()
  | .mExtern => do
    w.checkModuleShadowing w.inMacro m
    checkLoaders (w.loadExternType m)
  | .mCode => w.checkModuleShadowing w.inMacro m
  | .mMacro =>
    if w.inMacro then w.checkModuleShadowing w.inMacro m
    else if !w.complete && w.inMacro then .error .other
    else w.checkModuleShadowing true m

def hasPolicy (m : Module) (policy : CheckPolicy) : Bool :=
  decide (policy ∈ (w.extra m).checkPolicy) || match policy with
    | .noCheckShadowing | .noCheckFileTimeModification => w.doNotCheckModules && w.displayMode
    | _ => false

variable [DecidableEq Decls]

def checkFile (m : Module) : Except Failure Unit :=
  if w.fileTime m ≠ (w.extra m).time then
    if w.hasPolicy m .checkFileContentModification then do
      if ← w.contentChanged m then .error .notFound else .ok ()
    else .error .notFound
  else .ok ()

/-- The checks of a module that are made once in a compilation. -/
def checkSources (m : Module) : Except Failure Unit := do
  if !w.hasPolicy m .noCheckShadowing then w.checkModulePath m
  if !w.hasPolicy m .noCheckFileTimeModification || !w.isHaxe m then w.checkFile m

end World

variable [DecidableEq Module] [DecidableEq Decls]

/-- The result of `check`: `None`, `Some path`, or an exception; and the end of the fuel. -/
inductive Answer (Module : Type) where
  | reusable
  | dirty (path : Module)
  | raised
  | outOfFuel
  deriving DecidableEq, Repr

/-- `check_dependencies`, which the first dirty one ends. -/
def checkDependencies (check : Module → State Module → Answer Module × State Module) :
    List Module → State Module → Answer Module × State Module
  | [], s => (.reusable, s)
  | m2 :: deps, s =>
    match check m2 s with
    | (.reusable, s) => checkDependencies check deps s
    | found => found

/-- The exception `Dirty` is handled by the module that depends on the dirty one. -/
@[grind =]
def handleDirty (m : Module) : Answer Module × State Module → Answer Module × State Module
  | (.dirty path, s) => (.dirty path, s.setDirty m path)
  | found => found

def check (w : World Module Decls) (mark startMark : Nat) :
    Nat → Module → State Module → Answer Module × State Module
  | 0, _, s => (.outOfFuel, s)
  | fuel + 1, m, s =>
    match s.dirty m with
    | some path => (.dirty path, s)
    | none =>
      if s.mark m = mark then (.reusable, s)
      else
        let oldMark := s.mark m
        let s := s.setMark m mark
        match if oldMark ≤ startMark then w.checkSources m else .ok () with
        | .error .notFound => (.dirty m, s.setDirty m m)
        | .error .other => (.raised, s)
        | .ok () =>
          if w.hasPolicy m .noCheckDependencies then (.reusable, s)
          else
            handleDirty m
              (checkDependencies (check w mark startMark fuel) (w.extra m).deps s)

/-- A module of the other context is a dependency to check only. -/
def addModules (w : World Module Decls) (m0 : Module) :
    Nat → Module → State Module → State Module
  | 0, _, s => s
  | fuel + 1, m, s =>
    if s.added m < s.compilationStep then
      match (w.extra m0).kind, (w.extra m).kind with
      | .mCode, .mMacro | .mMacro, .mCode => s
      | _, _ => (w.extra m).deps.foldl (fun s m2 => addModules w m0 fuel m2 s) (s.setAdded m)
    else s

variable [Fintype Module]

/-- `check_module`. A chain of modules that are not marked yet has no module twice. -/
def checkModule (w : World Module Decls) (m : Module) (s : State Module) :
    Answer Module × State Module :=
  check w s.markLoop s.compilationMark (Fintype.card Module + 1) m s

/-- `type_module`, given the module that the cache has for the path. -/
def typeModule (w : World Module Decls) (found : Option Module) (s : State Module) :
    Except Failure (Option Module) × State Module :=
  let s := s.nextMark
  match found with
  | none => (.ok none, s)
  | some m =>
    match checkModule w m s with
    | (.reusable, s) => (.ok (some m), addModules w m (Fintype.card Module + 1) m s)
    | (.dirty _, s) => (.ok none, s)
    | (_, s) => (.error .other, s)

/-- A sequence of requests; one that raises does not end the compilation, as a macro can handle
the exception. -/
def requests (w : World Module Decls) (s : State Module) (found : List (Option Module)) :
    State Module :=
  found.foldl (fun s found => (typeModule w found s).2) s

end Haxe.Source.Server
