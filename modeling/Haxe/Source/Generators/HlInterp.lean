import Haxe.Source.Generators.Hlcode

/-!
# The HashLink interpreter

`interp` of `hlinterp.ml`, opcode by opcode. The registers of a call are a part of the stack, and
`get` and `set` are logged. What the interpreter leaves to other functions (the heap, casts, calls
and the text of errors) is a `Runtime`, which may do anything to the context, the stack included.
-/

namespace Haxe.Source.HlInterp

open Hl

/-- What a reference points to: a cell of the stack, a cell of its own, or an element. -/
inductive RefValue where
  | rStack (i : Nat)
  | rValue (cell : Nat)
  | rArray (a : Nat) (i : Int)
  deriving DecidableEq

/-- Objects, strings, arrays and functions are named by their identity. -/
inductive Value (F : Type) where
  | vNull
  | vInt (i : BitVec 32)
  | vInt64 (i : BitVec 64)
  | vFloat (x : F)
  | vBool (b : Bool)
  | vDyn (v : Value F) (t : Ttype)
  | vObj (o : Nat)
  | vClosure (f : Nat) (arg : Option (Value F))
  | vBytes (b : Nat)
  | vArray (a : Nat) (t : Ttype)
  | vUndef
  | vType (t : Ttype)
  | vRef (r : RefValue) (t : Ttype)
  | vVirtual (v : Nat)
  | vDynObj (d : Nat)
  | vEnum (e i vals : Nat)
  | vAbstract (a : Nat)
  | vVarArgs (f : Nat) (arg : Option (Value F))
  | vStruct (o : Nat)

/-- `Return`, `InterpThrow` and `Runtime_error`, the `Not_found`, `Failure` and `Invalid_argument`
of the standard library, and `Globals.die`. -/
inductive Raise (F : Type) where
  | return_ (v : Value F)
  | interpThrow (v : Value F)
  | runtimeError (message : String)
  | notFound
  | failure (message : String)
  | invalidArgument (message : String)
  | die

abbrev Comp (Ctx F α : Type) := EStateM (Raise F) Ctx α

/-- The functions that `interp` calls. -/
structure Runtime (Ctx F : Type) where
  checked : Bool
  isCompatible : Value F → Ttype → Bool
  tstr : Ttype → String
  vstrD : Value F → Comp Ctx F String
  stack : Ctx → Nat → Value F
  setStack : Ctx → Nat → Value F → Ctx
  -- the constants of the code
  ints : Nat → Comp Ctx F (BitVec 32)
  floats : Nat → Comp Ctx F F
  cachedString : Nat → Comp Ctx F Nat
  bytes : Nat → Comp Ctx F Nat
  strings : Nat → Comp Ctx F String
  globalType : Nat → Comp Ctx F Ttype
  -- numbers; a shift by 32 or more is not specified
  shiftLeft : BitVec 32 → BitVec 32 → BitVec 32
  shiftRight : BitVec 32 → BitVec 32 → BitVec 32
  shiftRightLogical : BitVec 32 → BitVec 32 → BitVec 32
  floatAdd : F → F → F
  floatSub : F → F → F
  floatMul : F → F → F
  floatDiv : F → F → F
  modFloat : F → F → F
  floatNeg : F → F
  toFloat : BitVec 32 → F
  ofFloat : F → BitVec 32
  /-- `4294967296.` -/
  wordCount : F
  floatOfBits32 : BitVec 32 → F
  floatOfBits64 : BitVec 64 → F
  bitsOfFloat32 : F → BitVec 32
  bitsOfFloat64 : F → BitVec 64
  -- functions
  getFunction : Nat → Comp Ctx F Nat
  fcall : Nat → List (Value F) → Comp Ctx F (Value F)
  dynCall : Value F → List (Value F × Ttype) → Ttype → Comp Ctx F (Value F)
  dynCast : Value F → Ttype → Ttype → Comp Ctx F (Value F)
  dynCompare : Value F → Ttype → Value F → Ttype → Comp Ctx F Int
  dynGetField : Value F → String → Ttype → Comp Ctx F (Value F)
  dynSetField : Value F → String → Value F → Ttype → Comp Ctx F Unit
  getType : Value F → Comp Ctx F (Option Ttype)
  toVirtual : Value F → Nat → Comp Ctx F (Value F)
  camlToHl : String → Comp Ctx F Nat
  allocObj : Ttype → Comp Ctx F (Value F)
  -- globals, references and the heap
  global : Nat → Comp Ctx F (Value F)
  setGlobal : Nat → Value F → Comp Ctx F Unit
  getRef : RefValue → Comp Ctx F (Value F)
  setRef : RefValue → Value F → Comp Ctx F Unit
  ofields : Nat → Nat → Comp Ctx F (Value F)
  setOfields : Nat → Nat → Value F → Comp Ctx F Unit
  /-- the type of a field by the `get_proto` of the object -/
  protoField : Nat → Nat → Comp Ctx F Ttype
  pmethods : Nat → Nat → Comp Ctx F Nat
  /-- `PMap.find` in the `pfunctions` of the class -/
  pfunctions : Nat → String → Comp Ctx F Nat
  /-- the index of a field, or `VFNone` -/
  vindexes : Nat → Nat → Comp Ctx F (Option Nat)
  vtable : Nat → Nat → Comp Ctx F (Value F)
  setVtable : Nat → Nat → Value F → Comp Ctx F Unit
  vfields : Nat → Nat → Comp Ctx F (String × Ttype)
  vvalue : Nat → Comp Ctx F (Value F)
  newArray : List (Value F) → Comp Ctx F Nat
  array : Nat → Int → Comp Ctx F (Value F)
  setArray : Nat → Int → Value F → Comp Ctx F Unit
  arrayLength : Nat → Comp Ctx F Nat
  /-- the types of the parameters of a constructor -/
  efields : Nat → Nat → Comp Ctx F (List Ttype)
  stringGet : Nat → Int → Comp Ctx F Nat
  bytesSet : Nat → Int → Nat → Comp Ctx F Unit
  getI32 : Nat → Int → Comp Ctx F (BitVec 32)
  getI64 : Nat → Int → Comp Ctx F (BitVec 64)
  setI32 : Nat → Int → BitVec 32 → Comp Ctx F Unit
  setI64 : Nat → Int → BitVec 64 → Comp Ctx F Unit
  -- the stacks of calls, for a throw, a rethrow, a return, and a throw that is handled or not
  thrown : Ctx → Ctx
  rethrown : Ctx → Ctx
  returned : Ctx → Ctx
  caught : Int → Ctx → Ctx
  uncaught : Ctx → Ctx

/-- A call of a function, whose registers are on the stack from `spos` on. -/
structure Frame (Ctx F : Type) extends Runtime Ctx F where
  f : Fundecl
  spos : Nat

/-- The traps are the registers and the positions of the handlers. -/
structure State (Ctx : Type) where
  ctx : Ctx
  pos : Int
  traps : List (Reg × Int)
  accesses : List Access

abbrev M (Ctx F α : Type) := EStateM (Raise F) (State Ctx) α

namespace Frame

variable {Ctx F : Type}

def lift {α : Type} (x : Comp Ctx F α) : M Ctx F α := fun s =>
  match x s.ctx with
  | .ok a ctx => .ok a { s with ctx := ctx }
  | .error e ctx => .error e { s with ctx := ctx }

def die {α : Type} : M Ctx F α := throw .die

def error {α : Type} (message : String) : M Ctx F α := throw (.runtimeError message)

def nullAccess {α : Type} : M Ctx F α := error "Null value bypass null pointer check"

variable (fr : Frame Ctx F)

def throwValue {α : Type} (v : Value F) : M Ctx F α := fun s =>
  .error (.interpThrow v) { s with ctx := fr.thrown s.ctx }

def throwMsg {α : Type} (message : String) : M Ctx F α := do
  let text ← lift (fr.camlToHl message)
  fr.throwValue (.vDyn (.vBytes text) .hBytes)

def rtype (r : Reg) : Ttype := fr.f.regs[r]?.getD .hVoid

def check (v : Value F) (t : Ttype) (id : String) : M Ctx F Unit :=
  if fr.checked && !fr.isCompatible v t then do
    let shown ← lift (fr.vstrD v)
    error ("Can't set " ++ id ++ "(" ++ fr.tstr t ++ ") with " ++ shown)
  else pure ()

def checkObj (v o : Value F) (fid : Nat) : M Ctx F Unit :=
  if fr.checked then
    match o with
    | .vObj o => do fr.check v (← lift (fr.protoField o fid)) "obj field"
    | .vVirtual vp => do fr.check v (← lift (fr.vfields vp fid)).2 "virtual field"
    | _ => pure ()
  else pure ()

def get (r : Reg) : M Ctx F (Value F) := fun s =>
  .ok (fr.stack s.ctx (r + fr.spos)) { s with accesses := s.accesses ++ [read r] }

def store (r : Reg) (v : Value F) : M Ctx F Unit := fun s =>
  .ok () { s with
    ctx := fr.setStack s.ctx (r + fr.spos) v
    accesses := s.accesses ++ [write r] }

def set (r : Reg) (v : Value F) : M Ctx F Unit := do
  fr.check v (fr.rtype r) ("register " ++ toString r)
  fr.store r v

/-- `set r x` for a value that is computed. -/
def assign (r : Reg) (x : M Ctx F (Value F)) : M Ctx F Unit := do
  let v ← x
  fr.set r v

/-- `List.map get` -/
def gets : List Reg → M Ctx F (List (Value F))
  | [] => pure []
  | r :: rl => do
    let v ← fr.get r
    let vs ← gets rl
    pure (v :: vs)

/-- The values with the types of their registers. -/
def getTyped : List Reg → M Ctx F (List (Value F × Ttype))
  | [] => pure []
  | r :: rl => do
    let v ← fr.get r
    let vs ← getTyped rl
    pure ((v, fr.rtype r) :: vs)

def getBoth (a b : Reg) : M Ctx F (Value F × Value F) := do
  let v ← fr.get a
  let w ← fr.get b
  pure (v, w)

def numop (iop : BitVec 32 → BitVec 32 → BitVec 32) (fop : F → F → F) (a b : Reg) :
    M Ctx F (Value F) :=
  match fr.rtype a with
  | .hUI8 | .hUI16 | .hI32 => do
    match ← fr.getBoth a b with
    | (.vInt a, .vInt b) => pure (.vInt (iop a b))
    | _ => die
  | .hF32 | .hF64 => do
    match ← fr.getBoth a b with
    | (.vFloat a, .vFloat b) => pure (.vFloat (fop a b))
    | _ => die
  | _ => die

def iop (g : BitVec 32 → BitVec 32 → BitVec 32) (a b : Reg) : M Ctx F (Value F) :=
  match fr.rtype a with
  | .hUI8 | .hUI16 | .hI32 => do
    match ← fr.getBoth a b with
    | (.vInt a, .vInt b) => pure (.vInt (g a b))
    | _ => die
  | _ => die

def iunop (g : BitVec 32 → BitVec 32) (r : Reg) : M Ctx F (Value F) :=
  match fr.rtype r with
  | .hUI8 | .hUI16 | .hI32 => do
    match ← fr.get r with
    | .vInt a => pure (.vInt (g a))
    | _ => die
  | _ => die

/-- By the upper halves, and then by the lower ones. -/
def ucompare (a b : Reg) : M Ctx F Int := do
  match ← fr.getBoth a b with
  | (.vInt a, .vInt b) =>
    let d := (a >>> 16) - (b >>> 16)
    pure (if d = 0 then (a &&& 0xFFFF) - (b &&& 0xFFFF) else d).toInt
  | _ => die

def invalidComparison : Int := 255

def vcompare (ra rb : Reg) (op : Int → Bool) : M Ctx F Bool := do
  let a ← fr.get ra
  let b ← fr.get rb
  let r ← lift (fr.dynCompare a (fr.rtype ra) b (fr.rtype ra))
  pure (if r = invalidComparison then false else op r)

def ufloat (v : BitVec 32) : F :=
  if v.toInt < 0 then fr.floatAdd (fr.toFloat v) fr.wordCount else fr.toFloat v

def jump (i : Int) : M Ctx F Unit := fun s => .ok () { s with pos := s.pos + i }

def jumpIf (condition : M Ctx F Bool) (i : Int) : M Ctx F Unit := do
  if ← condition then jump i else pure ()

/-- A `Not_found` inside is fatal. -/
def orDie {α : Type} (x : M Ctx F α) : M Ctx F α := fun s =>
  match x s with
  | .error .notFound s => .error .die s
  | result => result

def pushTrap (r : Reg) (j : Int) : M Ctx F Unit := fun s =>
  .ok () { s with traps := (r, s.pos + j) :: s.traps }

def popTrap : M Ctx F Unit := fun s =>
  match s.traps with
  | [] => .error (.failure "tl") s
  | _ :: traps => .ok () { s with traps := traps }

def isNull : Value F → Bool
  | .vNull => true
  | _ => false

def isBool (b : Bool) : Value F → Bool
  | .vBool c => c == b
  | _ => false

/-- `make_dyn` -/
def makeDyn (v : Value F) (t : Ttype) : Value F :=
  if isNull v || isDynamic t then v else .vDyn v t

def typeId : Ttype → Nat
  | .hVoid => 0
  | .hUI8 => 1
  | .hUI16 => 2
  | .hI32 => 3
  | .hI64 => 4
  | .hF32 => 5
  | .hF64 => 6
  | .hBool => 7
  | .hBytes => 8
  | .hDyn => 9
  | .hFun _ _ => 10
  | .hObj _ => 11
  | .hArray => 12
  | .hType => 13
  | .hRef _ => 14
  | .hVirtual _ => 15
  | .hDynObj => 16
  | .hAbstract _ _ => 17
  | .hEnum _ => 18
  | .hNull _ => 19
  | .hMethod _ _ => 20
  | .hStruct _ => 21

/-! ## Opcodes with a body of their own -/

def callFun (r : Reg) (f : Nat) (rl : List Reg) : M Ctx F Unit :=
  fr.assign r do
    let f ← lift (fr.getFunction f)
    let args ← fr.gets rl
    lift (fr.fcall f args)

def getField (r o : Reg) (fid : Nat) : M Ctx F (Value F) := do
  match ← fr.get o with
  | .vObj v | .vStruct v => lift (fr.ofields v fid)
  | .vVirtual v =>
    match ← lift (fr.vindexes v fid) with
    | none =>
      let field ← lift (fr.vfields v fid)
      lift (fr.dynGetField (.vVirtual v) field.1 (fr.rtype r))
    | some i => lift (fr.vtable v i)
  | .vNull => nullAccess
  | _ => die

def setField (o : Reg) (fid : Nat) (r : Reg) : M Ctx F Unit := do
  let rv ← fr.get r
  let o ← fr.get o
  match o with
  | .vObj v | .vStruct v => do
    fr.checkObj rv o fid
    lift (fr.setOfields v fid rv)
  | .vVirtual v => do
    match ← lift (fr.vindexes v fid) with
    | none =>
      let field ← lift (fr.vfields v fid)
      lift (fr.dynSetField o field.1 rv (fr.rtype r))
    | some i =>
      fr.checkObj rv o fid
      lift (fr.setVtable v i rv)
  | .vNull => nullAccess
  | _ => die

def getThis (fid : Nat) : M Ctx F (Value F) := do
  match ← fr.get 0 with
  | .vObj v | .vStruct v => lift (fr.ofields v fid)
  | _ => die

def setThis (fid : Nat) (r : Reg) : M Ctx F Unit := do
  let o ← fr.get 0
  match o with
  | .vObj v | .vStruct v => do
    let rv ← fr.get r
    fr.checkObj rv o fid
    lift (fr.setOfields v fid rv)
  | _ => die

def callMethod (r : Reg) (m : Nat) : List Reg → M Ctx F Unit
  | [] => throw (.failure "hd")
  | hd :: tl => do
    match ← fr.get hd with
    | .vObj v =>
      fr.assign r do
        let f ← lift (fr.pmethods v m)
        let args ← fr.gets (hd :: tl)
        lift (fr.fcall f args)
    | .vVirtual v =>
      let field ← lift (fr.vfields v m)
      match ← lift (fr.vvalue v) with
      | .vObj o =>
        orDie do
          let m ← lift (fr.pfunctions o field.1)
          fr.assign r do
            let f ← lift (fr.getFunction m)
            let args ← fr.getTyped tl
            lift (fr.dynCall (.vClosure f (some (.vObj o))) args (fr.rtype r))
      | .vDynObj d =>
        fr.assign r do
          let args ← fr.getTyped tl
          lift (fr.dynCall (.vDynObj d) args (fr.rtype r))
      | _ => die
    | .vNull => nullAccess
    | _ => die

def callThis (r : Reg) (m : Nat) (rl : List Reg) : M Ctx F Unit := do
  match ← fr.get 0 with
  | .vObj v =>
    fr.assign r do
      let f ← lift (fr.pmethods v m)
      let args ← fr.gets rl
      lift (fr.fcall f (.vObj v :: args))
  | _ => die

def callClosure (r v : Reg) (rl : List Reg) : M Ctx F Unit :=
  match fr.rtype v with
  | .hDyn =>
    fr.assign r do
      let f ← fr.get v
      let args ← fr.getTyped rl
      lift (fr.dynCall f args (fr.rtype r))
  | _ => do
    match ← fr.get v with
    | .vClosure f none =>
      fr.assign r do
        let args ← fr.gets rl
        lift (fr.fcall f args)
    | .vClosure f (some arg) =>
      fr.assign r do
        let args ← fr.gets rl
        lift (fr.fcall f (arg :: args))
    | .vNull => nullAccess
    | _ => do
      let shown ← lift (fr.vstrD (← fr.get v))
      fr.throwMsg shown

def virtualClosure (r o : Reg) (m : Nat) : M Ctx F Unit := do
  match ← fr.get o with
  | .vObj v =>
    let f ← lift (fr.pmethods v m)
    fr.assign r do
      match ← lift (fr.getType (.vClosure f (some (.vObj v)))) with
      | none => die
      | some t => lift (fr.dynCast (.vClosure f (some (.vObj v))) t (fr.rtype r))
  | .vNull => nullAccess
  | _ => die

def getMem (r b p : Reg) : M Ctx F Unit := do
  match ← fr.getBoth b p with
  | (.vBytes b, .vInt p) =>
    fr.assign r (match fr.rtype r with
      | .hI32 => do pure (.vInt (← lift (fr.getI32 b p.toInt)))
      | .hI64 => do pure (.vInt64 (← lift (fr.getI64 b p.toInt)))
      | .hF32 => do pure (.vFloat (fr.floatOfBits32 (← lift (fr.getI32 b p.toInt))))
      | .hF64 => do pure (.vFloat (fr.floatOfBits64 (← lift (fr.getI64 b p.toInt))))
      | _ => die)
  | _ => die

def setUI8 (r p v : Reg) : M Ctx F Unit := do
  let both ← fr.getBoth r p
  match both, ← fr.get v with
  | (.vBytes b, .vInt p), .vInt v => lift (fr.bytesSet b p.toInt (v &&& 0xFF).toNat)
  | _, _ => die

def setUI16 (r p v : Reg) : M Ctx F Unit := do
  let both ← fr.getBoth r p
  match both, ← fr.get v with
  | (.vBytes b, .vInt p), .vInt v => do
    lift (fr.bytesSet b p.toInt (v &&& 0xFF).toNat)
    lift (fr.bytesSet b (p.toInt + 1) ((v >>> 8) &&& 0xFF).toNat)
  | _, _ => die

def setMem (r p v : Reg) : M Ctx F Unit := do
  match ← fr.getBoth r p with
  | (.vBytes b, .vInt p) =>
    match fr.rtype v, ← fr.get v with
    | .hI32, .vInt v => lift (fr.setI32 b p.toInt v)
    | .hI64, .vInt64 v => lift (fr.setI64 b p.toInt v)
    | .hF32, .vFloat x => lift (fr.setI32 b p.toInt (fr.bitsOfFloat32 x))
    | .hF64, .vFloat x => lift (fr.setI64 b p.toInt (fr.bitsOfFloat64 x))
    | _, _ => die
  | _ => die

def setArrayItem (a i v : Reg) : M Ctx F Unit := do
  match ← fr.getBoth a i with
  | (.vArray a t, .vInt i) =>
    let v ← fr.get v
    fr.check v t "array"
    let length ← lift (fr.arrayLength a)
    if fr.checked && (i.toInt < 0 || i.toInt ≥ length) then do
      let shown ← lift (fr.vstrD v)
      error ("Can't set array index " ++ toString i.toInt ++ " with " ++ shown)
    else lift (fr.setArray a i.toInt v)
  | _ => die

/-- The value inside a virtual one. -/
def unwrapped : Value F → M Ctx F (Value F)
  | .vVirtual v => do
    match ← lift (fr.vvalue v) with
    | .vNull => die
    | inner => pure inner
  | v => pure v

def getTypeOf (v : Reg) : M Ctx F (Value F) := do
  let v ← fr.unwrapped (← fr.get v)
  if isNull v then pure (.vType .hVoid)
  else
    match ← lift (fr.getType v) with
    | none => die
    | some t => pure (.vType t)

def setReference (r v : Reg) : M Ctx F Unit := do
  match ← fr.get r with
  | .vRef r t => do
    let v ← fr.get v
    fr.check v t "ref"
    lift (fr.setRef r v)
  | _ => die

def setEnumField (v : Reg) (i : Nat) (r : Reg) : M Ctx F Unit := do
  match ← fr.get v, fr.rtype v with
  | .vEnum _ id vl, .hEnum e => do
    let rv ← fr.get r
    let fields ← lift (fr.efields e id)
    match fields[i]? with
    | none => throw (.invalidArgument "index out of bounds")
    | some t => do
      fr.check rv t "enumfield"
      lift (fr.setArray vl i rv)
  | _, _ => die

/-- The body of `loop`, for the opcode at the position before. -/
def interp : Opcode → M Ctx F Unit
  | .oMov a b => fr.assign a (fr.get b)
  | .oInt r i => fr.assign r (do pure (.vInt (← lift (fr.ints i))))
  | .oFloat r i => fr.assign r (do pure (.vFloat (← lift (fr.floats i))))
  | .oString r s => fr.assign r (do pure (.vBytes (← lift (fr.cachedString s))))
  | .oBytes r s => fr.assign r (do pure (.vBytes (← lift (fr.bytes s))))
  | .oBool r b => fr.set r (.vBool b)
  | .oNull r => fr.set r .vNull
  | .oAdd r a b => fr.assign r (fr.numop (· + ·) fr.floatAdd a b)
  | .oSub r a b => fr.assign r (fr.numop (· - ·) fr.floatSub a b)
  | .oMul r a b => fr.assign r (fr.numop (· * ·) fr.floatMul a b)
  | .oSDiv r a b =>
    fr.assign r (fr.numop (fun a b => if b = 0 then 0 else a.sdiv b) fr.floatDiv a b)
  | .oUDiv r a b =>
    fr.assign r (fr.iop (fun a b =>
      if b = 0 then 0 else fr.ofFloat (fr.floatDiv (fr.ufloat a) (fr.ufloat b))) a b)
  | .oSMod r a b =>
    fr.assign r (fr.numop (fun a b => if b = 0 then 0 else a.srem b) fr.modFloat a b)
  | .oUMod r a b =>
    fr.assign r (fr.iop (fun a b =>
      if b = 0 then 0 else fr.ofFloat (fr.modFloat (fr.ufloat a) (fr.ufloat b))) a b)
  | .oShl r a b => fr.assign r (fr.iop fr.shiftLeft a b)
  | .oSShr r a b => fr.assign r (fr.iop fr.shiftRight a b)
  | .oUShr r a b => fr.assign r (fr.iop fr.shiftRightLogical a b)
  | .oAnd r a b => fr.assign r (fr.iop (· &&& ·) a b)
  | .oOr r a b => fr.assign r (fr.iop (· ||| ·) a b)
  | .oXor r a b => fr.assign r (fr.iop (· ^^^ ·) a b)
  | .oNeg r v =>
    fr.assign r do
      match ← fr.get v with
      | .vInt v => pure (.vInt (-v))
      | .vFloat x => pure (.vFloat (fr.floatNeg x))
      | _ => die
  | .oNot r v =>
    fr.assign r do
      match ← fr.get v with
      | .vBool b => pure (.vBool !b)
      | _ => die
  | .oIncr r => fr.assign r (fr.iunop (· + 1) r)
  | .oDecr r => fr.assign r (fr.iunop (· - 1) r)
  | .oCall0 r f => fr.callFun r f []
  | .oCall1 r f r1 => fr.callFun r f [r1]
  | .oCall2 r f r1 r2 => fr.callFun r f [r1, r2]
  | .oCall3 r f r1 r2 r3 => fr.callFun r f [r1, r2, r3]
  | .oCall4 r f r1 r2 r3 r4 => fr.callFun r f [r1, r2, r3, r4]
  | .oCallN r f rl => fr.callFun r f rl
  | .oGetGlobal r g => fr.assign r (lift (fr.global g))
  | .oSetGlobal g r => do
    let v ← fr.get r
    fr.check v (← lift (fr.globalType g)) ("global " ++ toString g)
    lift (fr.setGlobal g v)
  | .oJTrue r i => jumpIf (do pure (isBool true (← fr.get r))) i
  | .oJFalse r i => jumpIf (do pure (isBool false (← fr.get r))) i
  | .oRet r => do throw (.return_ (← fr.get r))
  | .oJNull r i => jumpIf (do pure (isNull (← fr.get r))) i
  | .oJNotNull r i => jumpIf (do pure !isNull (← fr.get r)) i
  | .oJSLt a b i => jumpIf (fr.vcompare a b fun c => c < 0) i
  | .oJSGte a b i => jumpIf (fr.vcompare a b fun c => c ≥ 0) i
  | .oJSGt a b i => jumpIf (fr.vcompare a b fun c => c > 0) i
  | .oJSLte a b i => jumpIf (fr.vcompare a b fun c => c ≤ 0) i
  | .oJULt a b i => jumpIf (do pure ((← fr.ucompare a b) < 0)) i
  | .oJUGte a b i => jumpIf (do pure ((← fr.ucompare a b) ≥ 0)) i
  | .oJNotLt a b i => jumpIf (do pure !(← fr.vcompare a b fun c => c < 0)) i
  | .oJNotGte a b i => jumpIf (do pure !(← fr.vcompare a b fun c => c ≥ 0)) i
  | .oJEq a b i => jumpIf (fr.vcompare a b fun c => c = 0) i
  | .oJNotEq a b i => jumpIf (do pure !(← fr.vcompare a b fun c => c = 0)) i
  | .oJAlways i => jump i
  | .oToDyn r a => fr.assign r (do pure (makeDyn (← fr.get a) (fr.rtype a)))
  | .oToSFloat r a =>
    fr.assign r do
      match ← fr.get a with
      | .vInt v => pure (.vFloat (fr.toFloat v))
      | .vFloat x => pure (.vFloat x)
      | _ => die
  | .oToUFloat r a =>
    fr.assign r do
      match ← fr.get a with
      | .vInt v => pure (.vFloat (fr.ufloat v))
      | .vFloat x => pure (.vFloat x)
      | _ => die
  | .oToInt r a =>
    fr.assign r do
      match ← fr.get a, fr.rtype r with
      | .vFloat x, _ => pure (.vInt (fr.ofFloat x))
      | .vInt i, .hI64 => pure (.vInt64 (i.signExtend 64))
      | .vInt i, _ => pure (.vInt i)
      | _, _ => die
  | .oLabel _ => pure ()
  | .oNew r => fr.assign r (lift (fr.allocObj (fr.rtype r)))
  | .oField r o fid => fr.assign r (fr.getField r o fid)
  | .oSetField o fid r => fr.setField o fid r
  | .oGetThis r fid => fr.assign r (fr.getThis fid)
  | .oSetThis fid r => fr.setThis fid r
  | .oCallMethod r m rl => fr.callMethod r m rl
  | .oCallThis r m rl => fr.callThis r m rl
  | .oCallClosure r v rl => fr.callClosure r v rl
  | .oStaticClosure r fid => fr.assign r (do pure (.vClosure (← lift (fr.getFunction fid)) none))
  | .oInstanceClosure r fid v =>
    fr.assign r do
      let f ← lift (fr.getFunction fid)
      pure (.vClosure f (some (← fr.get v)))
  | .oVirtualClosure r o m => fr.virtualClosure r o m
  | .oThrow r => do fr.throwValue (← fr.get r)
  | .oRethrow r => do
    modify fun s => { s with ctx := fr.rethrown s.ctx }
    fr.throwValue (← fr.get r)
  | .oGetUI8 r b p => do
    match ← fr.getBoth b p with
    | (.vBytes b, .vInt p) =>
      fr.assign r (do pure (.vInt (.ofNat 32 (← lift (fr.stringGet b p.toInt)))))
    | _ => die
  | .oGetUI16 r b p => do
    match ← fr.getBoth b p with
    | (.vBytes b, .vInt p) =>
      let low ← lift (fr.stringGet b p.toInt)
      let high ← lift (fr.stringGet b (p.toInt + 1))
      fr.set r (.vInt (.ofNat 32 (low ||| (high <<< 8))))
    | _ => die
  | .oGetMem r b p => fr.getMem r b p
  | .oGetArray r a i => do
    match ← fr.getBoth a i with
    | (.vArray a _, .vInt i) => fr.assign r (lift (fr.array a i.toInt))
    | _ => die
  | .oSetUI8 r p v => fr.setUI8 r p v
  | .oSetUI16 r p v => fr.setUI16 r p v
  | .oSetMem r p v => fr.setMem r p v
  | .oSetArray a i v => fr.setArrayItem a i v
  | .oSafeCast r v =>
    fr.assign r (do lift (fr.dynCast (← fr.get v) (fr.rtype v) (fr.rtype r)))
  | .oUnsafeCast r v => fr.assign r (fr.get v)
  | .oArraySize r a => do
    match ← fr.get a with
    | .vArray a _ => fr.assign r (do pure (.vInt (.ofNat 32 (← lift (fr.arrayLength a)))))
    | _ => die
  | .oType r t => fr.set r (.vType t)
  | .oGetType r v => fr.assign r (fr.getTypeOf v)
  | .oGetTID r v =>
    fr.assign r do
      match ← fr.get v with
      | .vType t => pure (.vInt (.ofNat 32 (typeId t)))
      | _ => die
  | .oRef r v => fr.set r (.vRef (.rStack (v + fr.spos)) (fr.rtype v))
  | .oUnref v r =>
    fr.assign v do
      match ← fr.get r with
      | .vRef r _ => lift (fr.getRef r)
      | _ => die
  | .oSetref r v => fr.setReference r v
  | .oToVirtual r rv =>
    fr.assign r do
      match ← fr.get rv, fr.rtype r with
      | v, .hVirtual vp => lift (fr.toVirtual v vp)
      | _, _ => die
  | .oDynGet r o f =>
    fr.assign r do
      let o ← fr.get o
      lift (fr.dynGetField o (← lift (fr.strings f)) (fr.rtype r))
  | .oDynSet o fid vr => do
    let o ← fr.get o
    let v ← fr.get vr
    lift (fr.dynSetField o (← lift (fr.strings fid)) v (fr.rtype vr))
  | .oMakeEnum r e pl =>
    fr.assign r do
      let vals ← fr.gets pl
      match fr.rtype r with
      | .hEnum proto => pure (.vEnum proto e (← lift (fr.newArray vals)))
      | _ => die
  | .oEnumAlloc r f =>
    match fr.rtype r with
    | .hEnum e =>
      fr.assign r do
        let fl ← lift (fr.efields e f)
        pure (.vEnum e f (← lift (fr.newArray (fl.map fun _ => .vUndef))))
    | _ => die
  | .oEnumIndex r v => do
    match ← fr.get v with
    | .vEnum _ i _ => fr.set r (.vInt (.ofNat 32 i))
    | _ => die
  | .oEnumField r v _ i => do
    match ← fr.get v with
    | .vEnum _ _ vl => fr.assign r (lift (fr.array vl i))
    | _ => die
  | .oSetEnumField v i r => fr.setEnumField v i r
  | .oSwitch r indexes _ => do
    match ← fr.get r with
    | .vInt i =>
      if i.toInt < 0 then pure ()
      else
        match indexes[i.toNat]? with
        | some offset => jump offset
        | none => pure ()
    | _ => die
  | .oNullCheck r => do
    if isNull (← fr.get r) then fr.throwMsg "Null access" else pure ()
  | .oTrap r j => pushTrap r j
  | .oEndTrap _ => popTrap
  | .oAssert _ => fr.throwMsg "Assert"
  | .oRefData r d => do
    match ← fr.get d with
    | .vArray a t => fr.set r (.vRef (.rArray a 0) t)
    | _ => die
  | .oRefOffset r r2 off => do
    match ← fr.getBoth r2 off with
    | (.vRef (.rArray a pos) t, .vInt i) => fr.set r (.vRef (.rArray a (pos + i.toInt)) t)
    | _ => die
  | .oNop _ => pure ()

/-! ## Running a function -/

/-- How a turn of `loop` ends, with the handling of what is thrown. -/
inductive Turn (Ctx F : Type) where
  | running (s : State Ctx)
  | returned (v : Value F) (s : State Ctx)
  | thrown (v : Value F) (s : State Ctx)
  | crashed (e : Raise F) (s : State Ctx)

/-- Behind the handler of `exec`. -/
def Turn.ofResult : EStateM.Result (Raise F) (State Ctx) Unit → Turn Ctx F
  | .ok _ s => .running s
  | .error e s => .crashed e s

def fret : Option Ttype :=
  match fr.f.ftype with
  | .hFun _ ret => some ret
  | _ => none

/-- The handlers of `exec`. -/
def handle : EStateM.Result (Raise F) (State Ctx) Unit → Turn Ctx F
  | .ok _ s => .running s
  | .error (.return_ v) s =>
    match fr.fret with
    | none => .crashed .die s
    | some t =>
      match fr.check v t "return value" s with
      | .ok _ s => .returned v { s with ctx := fr.returned s.ctx }
      | .error e s => .crashed e s
  | .error (.interpThrow v) s =>
    match s.traps with
    | [] => .thrown v { s with ctx := fr.uncaught s.ctx }
    | (r, target) :: traps =>
      .ofResult (fr.set r v
        { s with ctx := fr.caught s.pos s.ctx, pos := target, traps := traps })
  | .error e s => .crashed e s

/-- The opcode at a position; one outside of the code is not read. -/
def opcodeAt (pos : Int) : Option Opcode := if pos < 0 then none else fr.f.code[pos.toNat]?

def turn (s : State Ctx) : Option (Turn Ctx F) :=
  (fr.opcodeAt s.pos).map fun op => fr.handle (fr.interp op { s with pos := s.pos + 1 })

end Frame

end Haxe.Source.HlInterp
