import Haxe.Theory.ClassFileFormat

/-!
# Stack map frames of the JVM generator

`jvmVerificationTypeInfo.ml`, and the stack map frames of `jvmAttribute.ml` with the functions
that write them. The verification types are those of the class file.
-/

namespace Haxe.Source.Jvm

open Theory.StackMapFormat (VerificationType)

abbrev JPath := List String × String

/-- `jsignature`, without the arguments of classes and methods, which are not looked at here. -/
inductive JSignature where
  | tByte
  | tChar
  | tDouble
  | tFloat
  | tInt
  | tLong
  | tShort
  | tBool
  | tObject (path : JPath)
  | tObjectInner (path : JPath)
  | tArray (element : JSignature)
  | tMethod
  | tTypeParameter (name : String)
  | tUninitialized (offset : Option Nat)
  deriving DecidableEq, Repr

def signatureSize : JSignature → Nat
  | .tDouble | .tLong => 2
  | _ => 1

theorem signatureSize_cases (jsig : JSignature) :
    signatureSize jsig = 1 ∨ signatureSize jsig = 2 := by
  cases jsig <;> simp [signatureSize]

/-- The index of the class with a path, and the signature of an array. -/
structure ConstantPool where
  addPath : JPath → Nat
  generateSignature : JSignature → String

/-- `of_signature`, which dies at an inner class. -/
def ofSignature (pool : ConstantPool) : JSignature → Option VerificationType
  | .tByte | .tChar | .tBool | .tShort | .tInt => some .integer
  | .tFloat => some .float
  | .tLong => some .long
  | .tDouble => some .double
  | .tObject path => some (.object (pool.addPath path))
  | .tMethod => some (.object (pool.addPath (["haxe", "jvm"], "Function")))
  | .tArray element =>
    some (.object (pool.addPath ([], pool.generateSignature (.tArray element))))
  | .tTypeParameter _ => some (.object (pool.addPath (["java", "lang"], "Object")))
  | .tUninitialized (some i) => some (.uninitialized i)
  | .tUninitialized none => some .uninitializedThis
  | .tObjectInner _ => none

/-- `j_stack_map_frame` -/
inductive StackMapFrame where
  | stackSame (i : Int)
  | stack1StackItem (i : Int) (t : VerificationType)
  | stack1StackItemExtended (i : Int) (t : VerificationType)
  | stackChop1 (i : Int)
  | stackChop2 (i : Int)
  | stackChop3 (i : Int)
  | stackSameExtended (i : Int)
  | stackAppend1 (i : Int) (t1 : VerificationType)
  | stackAppend2 (i : Int) (t1 t2 : VerificationType)
  | stackAppend3 (i : Int) (t1 t2 t3 : VerificationType)
  | stackFull (i : Int) (tl1 tl2 : List VerificationType)
  deriving DecidableEq, Repr

/-- `IO.write_byte` takes the lowest bits. -/
def writeByte (i : Int) : List Nat := [(i % 256).toNat]

/-- `IO.BigEndian.write_ui16`, which raises `Overflow`. -/
def writeUi16 (i : Int) : Option (List Nat) :=
  if 0 ≤ i ∧ i ≤ 0xffff then some [(i / 256).toNat, (i % 256).toNat] else none

def writeArray16 {α : Type} (f : α → Option (List Nat)) (a : List α) : Option (List Nat) := do
  let count ← writeUi16 a.length
  return count ++ (← a.mapM f).flatten

def writeVerificationType : VerificationType → Option (List Nat)
  | .top => some (writeByte 0)
  | .integer => some (writeByte 1)
  | .float => some (writeByte 2)
  | .double => some (writeByte 3)
  | .long => some (writeByte 4)
  | .null => some (writeByte 5)
  | .uninitializedThis => some (writeByte 6)
  | .object i => do return writeByte 7 ++ (← writeUi16 i)
  | .uninitialized i => do return writeByte 8 ++ (← writeUi16 i)

/-- The tag with the offset, and the types behind them. -/
def writeTagged (tag : Int) (i : Int) (types : List VerificationType) : Option (List Nat) := do
  return writeByte tag ++ (← writeUi16 i) ++ (← types.mapM writeVerificationType).flatten

@[grind =] def writeStackMapFrame : StackMapFrame → Option (List Nat)
  | .stackSame i => if i < 64 then some (writeByte i) else none
  | .stack1StackItem i t =>
    if i < 64 then do return writeByte (i + 64) ++ (← writeVerificationType t) else none
  | .stack1StackItemExtended i t => do
    return writeByte 247 ++ (← writeUi16 i) ++ (← writeVerificationType t)
  | .stackChop1 i1 => writeTagged 250 i1 []
  | .stackChop2 i1 => writeTagged 249 i1 []
  | .stackChop3 i1 => writeTagged 248 i1 []
  | .stackSameExtended i => writeTagged 251 i []
  | .stackAppend1 i1 t1 => writeTagged 252 i1 [t1]
  | .stackAppend2 i1 t1 t2 => writeTagged 253 i1 [t1, t2]
  | .stackAppend3 i1 t1 t2 t3 => writeTagged 254 i1 [t1, t2, t3]
  | .stackFull i1 tl1 tl2 => do
    return writeByte 255 ++ (← writeUi16 i1) ++ (← writeArray16 writeVerificationType tl1) ++
      (← writeArray16 writeVerificationType tl2)

/-- The data of `AttributeStackMapTable`. -/
def writeStackMapTable (stackMap : List StackMapFrame) : Option (List Nat) :=
  writeArray16 writeStackMapFrame stackMap

end Haxe.Source.Jvm

/-!
## Local variables and stack frames of a method

The part of the builder of `jvmMethod.ml` that allocates local variables and records stack
frames, and `get_stack_map_table`. The code that is emitted in between moves the position and
leaves some operand stack.
-/

namespace Haxe.Source.Jvm

open Theory.StackMapFormat (VerificationType)

/-- A local variable: the reference that says whether it is initialized, its signature, and the
slot that its store function uses. -/
structure Local where
  init : Nat
  jsig : JSignature
  slot : Nat
  deriving DecidableEq, Repr

/-- `var_init_state` -/
inductive VarInitState where
  | varArgument
  | varWillInit
  | varNeedDefault
  deriving DecidableEq, Repr

/-- An element of `stack_frames`; the last local variable and the top of the stack come first. -/
structure StackFrame where
  fp : Nat
  locals : List VerificationType
  stack : List VerificationType
  deriving DecidableEq, Repr

/-- The state of the builder. `inits` are the positions behind the first stores, and `scopes` is
what the functions returned by `push_scope` go back to. -/
structure Builder where
  inits : List (Option Nat)
  locals : List Local
  localOffset : Nat
  scopes : List (List Local × Nat)
  fp : Nat
  stack : List JSignature
  stackFrames : List StackFrame
  argumentLocals : List Local
  deriving DecidableEq, Repr

namespace Builder

variable (pool : ConstantPool)

def create : Builder := ⟨[], [], 0, [], 0, [], [], []⟩

/-- `init` is set by the first store. -/
def initialized (this : Builder) (l : Local) : Bool := (this.inits[l.init]?).join.isSome

/-- `check_store` -/
def checkStore (this : Builder) (init : Nat) : Builder :=
  if this.inits[init]? = some none then { this with inits := this.inits.set init (some this.fp) }
  else this

/-- `add_local`, behind the code that stores a default value. -/
@[grind =] def addLocal (this : Builder) (jsig : JSignature) (initState : VarInitState) : Builder :=
  let init := this.inits.length
  let added := { this with
    inits := this.inits ++ [none]
    locals := ⟨init, jsig, this.localOffset⟩ :: this.locals
    localOffset := this.localOffset + signatureSize jsig }
  match initState with
  | .varArgument | .varNeedDefault => added.checkStore init
  | .varWillInit => added

def finalizeArguments (this : Builder) : Builder := { this with argumentLocals := this.locals }

def pushScope (this : Builder) : Builder :=
  { this with scopes := this.scopes ++ [(this.locals, this.localOffset)] }

/-- The local variables of a scope that is left must be initialized. -/
def leaveLoop (this : Builder) : Int → List Local → Bool
  | i, [] => decide (i = 0)
  | i, l :: ls =>
    if i = 0 then true
    else this.initialized l && this.leaveLoop (i - signatureSize l.jsig) ls

/-- The function returned by a `push_scope` is called; where it raises nothing is changed. -/
def leaveScope (this : Builder) (scope : List Local × Nat) : Builder :=
  if this.leaveLoop ((this.localOffset : Int) - scope.2) this.locals
  then { this with locals := scope.1, localOffset := scope.2 } else this

def getLocalsForStackFrame (this : Builder) (locals : List Local) :
    Option (List VerificationType) :=
  locals.mapM fun l =>
    if this.initialized l then ofSignature pool l.jsig else some .top

/-- `add_stack_frame`; a frame at the position of the last one overwrites it. -/
def addStackFrame (this : Builder) : Builder :=
  match this.getLocalsForStackFrame pool this.locals, this.stack.mapM (ofSignature pool) with
  | some locals, some astack =>
    let ff : StackFrame := ⟨this.fp, locals, astack⟩
    { this with stackFrames := match this.stackFrames with
      | f :: stackFrames =>
        if f.fp = this.fp then ff :: stackFrames else ff :: f :: stackFrames
      | [] => [ff] }
  | _, _ => this

end Builder

inductive Operation where
  | pushScope
  | leaveScope (scope : Nat)
  | addLocal (jsig : JSignature) (initState : VarInitState)
  | store (init : Nat)
  | emit (length : Nat) (stack : List JSignature)
  | addStackFrame
  deriving DecidableEq, Repr

namespace Builder

variable (pool : ConstantPool)

@[grind =] def step (this : Builder) : Operation → Builder
  | .pushScope => this.pushScope
  | .leaveScope scope => (this.scopes[scope]?).elim this this.leaveScope
  | .addLocal jsig initState => this.addLocal jsig initState
  | .store init => this.checkStore init
  | .emit length stack => { this with fp := this.fp + length, stack := stack }
  | .addStackFrame => this.addStackFrame pool

/-- A method with its arguments. -/
def start (arguments : List JSignature) : Builder :=
  (arguments.foldl (fun this jsig => this.addLocal jsig .varArgument) create).finalizeArguments

def run (this : Builder) (operations : List Operation) : Builder :=
  operations.foldl (step pool) this

end Builder

/-- The entry of `get_stack_map_table` for a frame; `cur` is its distance to the last one. -/
def stackMapEntry (cur : Int) (lastLocals : List VerificationType) (f : StackFrame) :
    StackMapFrame :=
  let byDefault := StackMapFrame.stackFull cur f.locals.reverse f.stack.reverse
  let more := (f.locals.length : Int) - lastLocals.length
  match f.stack with
  | [] =>
    if more = 0 then
      if lastLocals = f.locals then if cur < 64 then .stackSame cur else .stackSameExtended cur
      else byDefault
    else if more = 1 then
      match f.locals with
      | vt1 :: locals => if locals = lastLocals then .stackAppend1 cur vt1 else byDefault
      | _ => byDefault
    else if more = 2 then
      match f.locals with
      | vt1 :: vt2 :: locals => if locals = lastLocals then .stackAppend2 cur vt2 vt1 else byDefault
      | _ => byDefault
    else if more = 3 then
      match f.locals with
      | vt1 :: vt2 :: vt3 :: locals =>
        if locals = lastLocals then .stackAppend3 cur vt3 vt2 vt1 else byDefault
      | _ => byDefault
    else if more = -1 then
      match lastLocals with
      | _ :: lastLocals => if f.locals = lastLocals then .stackChop1 cur else byDefault
      | _ => byDefault
    else if more = -2 then
      match lastLocals with
      | _ :: _ :: lastLocals => if f.locals = lastLocals then .stackChop2 cur else byDefault
      | _ => byDefault
    else if more = -3 then
      match lastLocals with
      | _ :: _ :: _ :: lastLocals => if f.locals = lastLocals then .stackChop3 cur else byDefault
      | _ => byDefault
    else byDefault
  | [vt] =>
    if more = 0 then
      if lastLocals = f.locals then
        if cur < 64 then .stack1StackItem cur vt else .stack1StackItemExtended cur vt
      else byDefault
    else byDefault
  | _ => byDefault

/-- The fold of `get_stack_map_table`, over the frames in order. -/
def stackMapEntries (lastOffset : Int) (lastLocals : List VerificationType) :
    List StackFrame → List StackMapFrame
  | [] => []
  | f :: frames =>
    stackMapEntry (f.fp - lastOffset - 1) lastLocals f :: stackMapEntries f.fp f.locals frames

def Builder.getStackMapTable (pool : ConstantPool) (this : Builder) :
    Option (List StackMapFrame) := do
  let argumentLocals ← this.getLocalsForStackFrame pool this.argumentLocals
  return stackMapEntries (-1) argumentLocals this.stackFrames.reverse

end Haxe.Source.Jvm
