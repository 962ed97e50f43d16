import Haxe.Source.Generators.JvmWriter

/-!
# The opcode builder of the JVM generator

`jvmCode.ml`. A method that raises keeps what it has done before that.
-/

namespace Haxe.Source.Jvm

def terminates : JOpcode → Bool
  | .opDreturn | .opFreturn | .opIreturn | .opLreturn | .opAreturn | .opGoto _ | .opGotoW _
  | .opJsr _ | .opJsrW _ | .opAthrow | .opReturn => true
  | _ => false

/-- `jvm_stack`, with the top of the stack first. -/
structure JvmStack where
  stack : List JSignature
  stackSize : Int
  maxStackSize : Int
  deriving DecidableEq, Repr

namespace JvmStack

def push (this : JvmStack) (js : JSignature) : JvmStack :=
  let size := this.stackSize + signatureSize js
  ⟨js :: this.stack, size, if size > this.maxStackSize then size else this.maxStackSize⟩

/-- Pops as many elements as are expected, and says whether none was missing. -/
def popAll (this : JvmStack) : List JSignature → JvmStack × Bool
  | [] => (this, true)
  | _ :: expect =>
    match this with
    | ⟨js :: stack, size, most⟩ => popAll ⟨stack, size - signatureSize js, most⟩ expect
    | ⟨[], size, most⟩ => (⟨[], size, most⟩, false)

def getStackItems (this : JvmStack) (i : Nat) : Option (List JSignature) :=
  if i ≤ this.stack.length then some (this.stack.take i) else none

def restore (this : JvmStack) (saved : List JSignature × Int) : JvmStack :=
  { this with stack := saved.1, stackSize := saved.2 }

end JvmStack

/-- The indices of constants in the constant pool. -/
structure CodePool extends ConstantPool where
  addType : String → Nat
  addInt : Int → Nat
  addLong : Int → Nat
  addFloat : Float → Nat
  addDouble : Float → Nat

/-- The state of the `builder` of `jvmCode.ml`. -/
structure CodeBuilder where
  stack : JvmStack
  lines : List (Nat × Int)
  lastLine : Int
  currentLine : Int
  ops : List JOpcode
  fp : Nat
  terminated : Bool

namespace CodeBuilder

def create : CodeBuilder := ⟨⟨[], 0, 0⟩, [], -1, -1, [], 0, false⟩

def recordLine (this : CodeBuilder) : CodeBuilder :=
  if this.lastLine ≠ this.currentLine then
    { this with lastLine := this.currentLine, lines := this.lines ++ [(this.fp, this.currentLine)] }
  else this

/-- `op`, which raises `EmptyStack` behind the opcode. -/
def op (this : CodeBuilder) (opcode : JOpcode) (length : Nat) (expect : List JSignature)
    (push : List JSignature) : CodeBuilder :=
  let popped := this.stack.popAll expect
  { this.recordLine with
    ops := this.ops ++ [opcode]
    fp := this.fp + length
    stack := if popped.2 then push.reverse.foldl JvmStack.push popped.1 else popped.1
    terminated := this.terminated || popped.2 && terminates opcode }

/-- `numeric_range` -/
inductive NumericRange where
  | int8Range | int16Range | int32Range
  deriving DecidableEq, Repr

def getNumericRange (i : Int) : NumericRange :=
  if i ≥ -128 ∧ i ≤ 127 then .int8Range
  else if i ≥ -32768 ∧ i ≤ 32767 then .int16Range
  else .int32Range

def getNumericRangeUnsigned (i : Int) : NumericRange :=
  if i ≤ 0xFF then .int8Range
  else if i ≤ 0xFFFF then .int16Range
  else .int32Range

/-- `op_maybe_wide`, which dies where no form has room for the operand. -/
def opMaybeWide (this : CodeBuilder) (op : JOpcode) (opw : OpWide) (i : Int)
    (tl tr : List JSignature) : CodeBuilder :=
  match getNumericRangeUnsigned i with
  | .int8Range => this.op op 2 tl tr
  | .int16Range => this.op (.opWide opw) 4 tl tr
  | .int32Range => this

/-- The method that loads or stores a local variable. -/
def slotOp (this : CodeBuilder) (op0 op1 op2 op3 op : JOpcode) (opw : OpWide) (i : Int)
    (tl tr : List JSignature) : CodeBuilder :=
  if i = 0 then this.op op0 1 tl tr
  else if i = 1 then this.op op1 1 tl tr
  else if i = 2 then this.op op2 1 tl tr
  else if i = 3 then this.op op3 1 tl tr
  else this.opMaybeWide op opw i tl tr

def iinc (this : CodeBuilder) (index i : Int) : CodeBuilder :=
  match getNumericRangeUnsigned index, getNumericRange i with
  | .int8Range, .int8Range => this.op (.opIinc index i) 3 [] []
  | .int32Range, _ | _, .int32Range => this
  | _, _ => this.op (.opWide (.opWIinc index i)) 6 [] []

/-- `stack#top`, which raises `EmptyStack`, in front of what is done with it. -/
def withTop (this : CodeBuilder) (f : JSignature → CodeBuilder) : CodeBuilder :=
  (this.stack.stack.head?).elim this f

def withItems (this : CodeBuilder) (i : Nat) (f : List JSignature → CodeBuilder) : CodeBuilder :=
  (this.stack.getStackItems i).elim this f

/-- The padding of a switch. -/
def pad (fp : Nat) : Nat :=
  let pad := (fp + 1) % 4
  if pad = 0 then pad else 4 - pad

def returnOp : JSignature → JOpcode
  | .tInt | .tBool | .tByte | .tChar | .tShort => .opIreturn
  | .tLong => .opLreturn
  | .tFloat => .opFreturn
  | .tDouble => .opDreturn
  | _ => .opAreturn

/-- `dup_x1` -/
def dupX1 (this : CodeBuilder) : CodeBuilder :=
  this.withItems 2 fun tl =>
    let tl2 := tl.take 1 ++ tl.reverse
    match tl with
    | .tLong :: _ | .tDouble :: _ => this.op .opDup2X1 1 tl tl2
    | _ => this.op .opDupX1 1 tl tl2

/-- `dup_x2` -/
def dupX2 (this : CodeBuilder) : CodeBuilder :=
  this.withItems 3 fun tl =>
    match tl.map signatureSize, tl with
    | 2 :: 2 :: _, vt1 :: vt2 :: _ => this.op .opDup2X2 1 [vt1, vt2] [vt1, vt2, vt1]
    | 1 :: 2 :: _, vt1 :: vt2 :: _ => this.op .opDupX2 1 [vt1, vt2] [vt1, vt2, vt1]
    | 1 :: 1 :: 1 :: _, vt1 :: vt2 :: vt3 :: _ => this.op .opDupX2 1 tl [vt1, vt2, vt3, vt1]
    | 2 :: 1 :: 1 :: _, vt1 :: vt2 :: vt3 :: _ => this.op .opDup2X2 1 tl [vt1, vt2, vt3, vt1]
    | _, _ => this

/-- The signature behind `checkcast`. -/
def castSignature (path : JPath) : JSignature :=
  if path = ([], "Int") then .tInt
  else if path = (["haxe"], "Int64") ∨ path = (["java"], "Int64") then .tLong
  else .tObject path

def ldc (this : CodeBuilder) (offset : Int) (vt : JSignature) : CodeBuilder :=
  if offset < 0xFF then this.op (.opLdc offset) 2 [] [vt]
  else this.op (.opLdcW offset) 3 [] [vt]

section Constants

variable (pool : CodePool)

/-- The opcode that `iconst` chooses, with its length. -/
def iconstOp (i : Int) : JOpcode × Nat :=
  if i = -1 then (.opIconstM1, 1)
  else if i = 0 then (.opIconst0, 1)
  else if i = 1 then (.opIconst1, 1)
  else if i = 2 then (.opIconst2, 1)
  else if i = 3 then (.opIconst3, 1)
  else if i = 4 then (.opIconst4, 1)
  else if i = 5 then (.opIconst5, 1)
  else match getNumericRange i with
    | .int8Range => (.opBipush i, 2)
    | .int16Range => (.opSipush i, 3)
    | .int32Range =>
      if pool.addInt i < 0xFF then (.opLdc (pool.addInt i), 2) else (.opLdcW (pool.addInt i), 3)

def dconstOp (f : Float) : JOpcode × Nat :=
  if f == 0.0 then (.opDconst0, 1)
  else if f == 1.0 then (.opDconst1, 1)
  else (.opLdc2W (pool.addDouble f), 3)

def lconstOp (d : Int) : JOpcode × Nat :=
  if d = 0 then (.opLconst0, 1)
  else if d = 1 then (.opLconst1, 1)
  else (.opLdc2W (pool.addLong d), 3)

def fconstOp (f : Float) : JOpcode × Nat :=
  if f == 0.0 then (.opFconst0, 1)
  else if f == 1.0 then (.opFconst1, 1)
  else if f == 2.0 then (.opFconst2, 1)
  else (.opLdcW (pool.addFloat f), 3)

end Constants

end CodeBuilder

/-- The methods of the `builder` that emit an opcode. -/
inductive Method where
  -- variables
  | iload (jsig : JSignature) (i : Int)
  | lload (i : Int)
  | fload (i : Int)
  | dload (i : Int)
  | aload (vtt : JSignature) (i : Int)
  | istore (i : Int)
  | lstore (i : Int)
  | fstore (i : Int)
  | dstore (i : Int)
  | astore (vtt : JSignature) (i : Int)
  | iinc (index i : Int)
  -- conversions
  | d2f | d2i | d2l | f2d | f2i | f2l
  | i2b (jsig : JSignature)
  | i2c | i2d | i2f | i2l | i2s | l2d | l2f | l2i
  -- arrays
  | newarray (ta : JSignature) (t : Int)
  | anewarray (ta : JSignature) (offset : Int)
  | arraylength (ta : JSignature)
  | aastore (ta te : JSignature)
  | aaload (ta te : JSignature)
  | castore (ta : JSignature)
  | caload (ta : JSignature)
  | fastore (ta : JSignature)
  | faload (ta : JSignature)
  | lastore (ta : JSignature)
  | laload (ta : JSignature)
  | sastore (ta : JSignature)
  | saload (ta : JSignature)
  | iastore (ta : JSignature)
  | iaload (ta : JSignature)
  | dastore (ta : JSignature)
  | daload (ta : JSignature)
  | bastore (jsig ta : JSignature)
  | baload (jsig ta : JSignature)
  -- fields
  | getstatic (offset : Int) (t : JSignature)
  | putstatic (offset : Int) (t : JSignature)
  | getfield (offset : Int) (tobj t : JSignature)
  | putfield (offset : Int) (tobj t : JSignature)
  -- calls
  | invokestatic (offset : Int) (tl tr : List JSignature)
  | invokevirtual (offset : Int) (t1 : JSignature) (tl tr : List JSignature)
  | invokeinterface (offset : Int) (t1 : JSignature) (tl tr : List JSignature)
  | invokespecial (offset : Int) (t1 : JSignature) (tl tr : List JSignature)
  | invokedynamic (offset : Int) (tl tr : List JSignature)
  | new_ (offset : Int)
  -- return
  | returnVoid
  | returnValue (t : JSignature)
  | athrow
  -- control flow
  | if_ (cmp : JCmp) (r : Nat)
  | ifIcmp (cmp : JCmp) (r : Nat)
  | ifAcmpEq (t1 t2 : JSignature) (r : Nat)
  | ifAcmpNe (t1 t2 : JSignature) (r : Nat)
  | ifNull (t : JSignature) (r : Nat)
  | ifNonnull (t : JSignature) (r : Nat)
  | goto (r : Nat)
  | lookupswitch (offsetDef : Nat) (offsets : List (Int × Nat))
  | tableswitch (offsetDef : Nat) (low high : Int) (offsets : List Nat)
  -- compare
  | dcmpg | dcmpl | fcmpg | fcmpl | lcmpl
  -- ops
  | iadd | isub | imul | iand | ior | ixor | ishl | ishr | iushr | irem | ineg | ladd | lsub
  | lmul | ldiv | land_ | lor_ | lxor_ | lshl | lshr | lushr | lrem | lneg | fadd | fsub | fmul
  | fdiv | frem | fneg | dadd | dsub | dmul | ddiv | drem | dneg
  -- stack
  | pop | dup | dupX1 | dupX2 | swap
  | checkcastSig (jsig : JSignature)
  | checkcast (path : JPath)
  | instanceof (path : JPath)
  -- monitor
  | monitorenter | monitorexit
  -- constants
  | aconstNull (t : JSignature)
  | ldc (offset : Int) (vt : JSignature)
  | bconst (b : Bool)
  | iconst (i32 : Int)
  | dconst (f : Float)
  | lconst (d : Int)
  | fconst (f : Float)
  | sconst (t : JSignature) (offset : Int)

namespace CodeBuilder

def call (pool : CodePool) (this : CodeBuilder) : Method → CodeBuilder
  -- variables
  | .iload jsig i =>
    this.slotOp .opIload0 .opIload1 .opIload2 .opIload3
      (.opIload i) (.opWIload i) i [] [jsig]
  | .lload i =>
    this.slotOp .opLload0 .opLload1 .opLload2 .opLload3
      (.opLload i) (.opWLload i) i [] [.tLong]
  | .fload i =>
    this.slotOp .opFload0 .opFload1 .opFload2 .opFload3
      (.opFload i) (.opWFload i) i [] [.tFloat]
  | .dload i =>
    this.slotOp .opDload0 .opDload1 .opDload2 .opDload3
      (.opDload i) (.opWDload i) i [] [.tDouble]
  | .aload vtt i =>
    this.slotOp .opAload0 .opAload1 .opAload2 .opAload3
      (.opAload i) (.opWAload i) i [] [vtt]
  | .istore i =>
    this.slotOp .opIstore0 .opIstore1 .opIstore2 .opIstore3
      (.opIstore i) (.opWIstore i) i [.tInt] []
  | .lstore i =>
    this.slotOp .opLstore0 .opLstore1 .opLstore2 .opLstore3
      (.opLstore i) (.opWLstore i) i [.tLong] []
  | .fstore i =>
    this.slotOp .opFstore0 .opFstore1 .opFstore2 .opFstore3
      (.opFstore i) (.opWFstore i) i [.tFloat] []
  | .dstore i =>
    this.slotOp .opDstore0 .opDstore1 .opDstore2 .opDstore3
      (.opDstore i) (.opWDstore i) i [.tDouble] []
  | .astore vtt i =>
    this.slotOp .opAstore0 .opAstore1 .opAstore2 .opAstore3
      (.opAstore i) (.opWAstore i) i [vtt] []
  | .iinc index i => this.iinc index i
  -- conversions
  | .d2f => this.op .opD2f 1 [.tDouble] [.tFloat]
  | .d2i => this.op .opD2i 1 [.tDouble] [.tInt]
  | .d2l => this.op .opD2l 1 [.tDouble] [.tLong]
  | .f2d => this.op .opF2d 1 [.tFloat] [.tDouble]
  | .f2i => this.op .opF2i 1 [.tFloat] [.tInt]
  | .f2l => this.op .opF2l 1 [.tFloat] [.tLong]
  | .i2b jsig => this.op .opI2b 1 [.tInt] [jsig]
  | .i2c => this.op .opI2c 1 [.tInt] [.tChar]
  | .i2d => this.op .opI2d 1 [.tInt] [.tDouble]
  | .i2f => this.op .opI2f 1 [.tInt] [.tFloat]
  | .i2l => this.op .opI2l 1 [.tInt] [.tLong]
  | .i2s => this.op .opI2s 1 [.tInt] [.tShort]
  | .l2d => this.op .opL2d 1 [.tLong] [.tDouble]
  | .l2f => this.op .opL2f 1 [.tLong] [.tFloat]
  | .l2i => this.op .opL2i 1 [.tLong] [.tInt]
  -- arrays
  | .newarray ta t => this.op (.opNewarray t) 2 [.tInt] [ta]
  | .anewarray ta offset => this.op (.opAnewarray offset) 3 [.tInt] [ta]
  | .arraylength ta => this.op .opArraylength 1 [ta] [.tInt]
  | .aastore ta te => this.op .opAastore 1 [te, .tInt, ta] []
  | .aaload ta te => this.op .opAaload 1 [.tInt, ta] [te]
  | .castore ta => this.op .opCastore 1 [.tChar, .tInt, ta] []
  | .caload ta => this.op .opCaload 1 [.tInt, ta] [.tChar]
  | .fastore ta => this.op .opFastore 1 [.tFloat, .tInt, ta] []
  | .faload ta => this.op .opFaload 1 [.tInt, ta] [.tFloat]
  | .lastore ta => this.op .opLastore 1 [.tLong, .tInt, ta] []
  | .laload ta => this.op .opLaload 1 [.tInt, ta] [.tLong]
  | .sastore ta => this.op .opSastore 1 [.tShort, .tInt, ta] []
  | .saload ta => this.op .opSaload 1 [.tInt, ta] [.tShort]
  | .iastore ta => this.op .opIastore 1 [.tInt, .tInt, ta] []
  | .iaload ta => this.op .opIaload 1 [.tInt, ta] [.tInt]
  | .dastore ta => this.op .opDastore 1 [.tDouble, .tInt, ta] []
  | .daload ta => this.op .opDaload 1 [.tInt, ta] [.tDouble]
  | .bastore jsig ta => this.op .opBastore 1 [jsig, .tInt, ta] []
  | .baload jsig ta => this.op .opBaload 1 [.tInt, ta] [jsig]
  -- fields
  | .getstatic offset t => this.op (.opGetstatic offset) 3 [] [t]
  | .putstatic offset t => this.op (.opPutstatic offset) 3 [t] []
  | .getfield offset tobj t => this.op (.opGetfield offset) 3 [tobj] [t]
  | .putfield offset tobj t => this.op (.opPutfield offset) 3 [t, tobj] []
  -- calls
  | .invokestatic offset tl tr => this.op (.opInvokestatic offset) 3 tl.reverse tr
  | .invokevirtual offset t1 tl tr =>
    this.op (.opInvokevirtual offset) 3 (t1 :: tl).reverse tr
  | .invokeinterface offset t1 tl tr =>
    let count := tl.foldl (fun count jsig => count + signatureSize jsig) 1
    this.op (.opInvokeinterface offset count) 5 (t1 :: tl).reverse tr
  | .invokespecial offset t1 tl tr =>
    this.op (.opInvokespecial offset) 3 (t1 :: tl).reverse tr
  | .invokedynamic offset tl tr => this.op (.opInvokedynamic offset) 5 tl.reverse tr
  | .new_ offset => this.op (.opNew offset) 3 [] [.tUninitialized (some this.fp)]
  -- return
  | .returnVoid => this.op .opReturn 1 [] []
  | .returnValue t => this.op (returnOp t) 1 [t] []
  | .athrow => this.withTop fun top => this.op .opAthrow 1 [top] []
  -- control flow
  | .if_ cmp r => this.op (.opIf cmp r) 3 [.tBool] []
  | .ifIcmp cmp r => this.op (.opIfIcmp cmp r) 3 [.tInt, .tInt] []
  | .ifAcmpEq t1 t2 r => this.op (.opIfAcmpeq r) 3 [t1, t2] []
  | .ifAcmpNe t1 t2 r => this.op (.opIfAcmpne r) 3 [t1, t2] []
  | .ifNull t r => this.op (.opIfnull r) 3 [t] []
  | .ifNonnull t r => this.op (.opIfnonnull r) 3 [t] []
  | .goto r => this.op (.opGoto r) 3 [] []
  | .lookupswitch offsetDef offsets =>
    this.op (.opLookupswitch (pad this.fp) offsetDef offsets)
      (9 + pad this.fp + offsets.length * 8) [.tInt] []
  | .tableswitch offsetDef low high offsets =>
    this.op (.opTableswitch (pad this.fp) offsetDef low high offsets)
      (13 + pad this.fp + offsets.length * 4) [.tInt] []
  -- compare
  | .dcmpg => this.op .opDcmpg 1 [.tDouble, .tDouble] [.tInt]
  | .dcmpl => this.op .opDcmpl 1 [.tDouble, .tDouble] [.tInt]
  | .fcmpg => this.op .opFcmpg 1 [.tFloat, .tFloat] [.tInt]
  | .fcmpl => this.op .opFcmpl 1 [.tFloat, .tFloat] [.tInt]
  | .lcmpl => this.op .opLcmp 1 [.tLong, .tLong] [.tInt]
  -- ops
  | .iadd => this.op .opIadd 1 [.tInt, .tInt] [.tInt]
  | .isub => this.op .opIsub 1 [.tInt, .tInt] [.tInt]
  | .imul => this.op .opImul 1 [.tInt, .tInt] [.tInt]
  | .iand => this.op .opIand 1 [.tInt, .tInt] [.tInt]
  | .ior => this.op .opIor 1 [.tInt, .tInt] [.tInt]
  | .ixor => this.op .opIxor 1 [.tInt, .tInt] [.tInt]
  | .ishl => this.op .opIshl 1 [.tInt, .tInt] [.tInt]
  | .ishr => this.op .opIshr 1 [.tInt, .tInt] [.tInt]
  | .iushr => this.op .opIushr 1 [.tInt, .tInt] [.tInt]
  | .irem => this.op .opIrem 1 [.tInt, .tInt] [.tInt]
  | .ineg => this.op .opIneg 1 [.tInt] [.tInt]
  | .ladd => this.op .opLadd 1 [.tLong, .tLong] [.tLong]
  | .lsub => this.op .opLsub 1 [.tLong, .tLong] [.tLong]
  | .lmul => this.op .opLmul 1 [.tLong, .tLong] [.tLong]
  | .ldiv => this.op .opLdiv 1 [.tLong, .tLong] [.tLong]
  | .land_ => this.op .opLand 1 [.tLong, .tLong] [.tLong]
  | .lor_ => this.op .opLor 1 [.tLong, .tLong] [.tLong]
  | .lxor_ => this.op .opLxor 1 [.tLong, .tLong] [.tLong]
  | .lshl => this.op .opLshl 1 [.tInt, .tLong] [.tLong]
  | .lshr => this.op .opLshr 1 [.tInt, .tLong] [.tLong]
  | .lushr => this.op .opLushr 1 [.tInt, .tLong] [.tLong]
  | .lrem => this.op .opLrem 1 [.tLong, .tLong] [.tLong]
  | .lneg => this.op .opLneg 1 [.tLong] [.tLong]
  | .fadd => this.op .opFadd 1 [.tFloat, .tFloat] [.tFloat]
  | .fsub => this.op .opFsub 1 [.tFloat, .tFloat] [.tFloat]
  | .fmul => this.op .opFmul 1 [.tFloat, .tFloat] [.tFloat]
  | .fdiv => this.op .opFdiv 1 [.tFloat, .tFloat] [.tFloat]
  | .frem => this.op .opFrem 1 [.tFloat, .tFloat] [.tFloat]
  | .fneg => this.op .opFneg 1 [.tFloat] [.tFloat]
  | .dadd => this.op .opDadd 1 [.tDouble, .tDouble] [.tDouble]
  | .dsub => this.op .opDsub 1 [.tDouble, .tDouble] [.tDouble]
  | .dmul => this.op .opDmul 1 [.tDouble, .tDouble] [.tDouble]
  | .ddiv => this.op .opDdiv 1 [.tDouble, .tDouble] [.tDouble]
  | .drem => this.op .opDrem 1 [.tDouble, .tDouble] [.tDouble]
  | .dneg => this.op .opDneg 1 [.tDouble] [.tDouble]
  -- stack
  | .pop => this.withTop fun top =>
    this.op (if signatureSize top = 1 then .opPop else .opPop2) 1 [top] []
  | .dup => this.withTop fun top =>
    this.op (if top = .tLong ∨ top = .tDouble then .opDup2 else .opDup) 1 [] [top]
  | .dupX1 => this.dupX1
  | .dupX2 => this.dupX2
  | .swap => this.withItems 2 fun tl => this.op .opSwap 1 tl tl.reverse
  | .checkcastSig jsig => this.withTop fun top =>
    this.op (.opCheckcast (pool.addType (pool.generateSignature jsig))) 3 [top] [jsig]
  | .checkcast path => this.withTop fun top =>
    this.op (.opCheckcast (pool.addPath path)) 3 [top] [castSignature path]
  | .instanceof path => this.withTop fun top =>
    this.op (.opInstanceof (pool.addPath path)) 3 [top] [.tInt]
  -- monitor
  | .monitorenter => this.withTop fun top => this.op .opMonitorenter 1 [top] []
  | .monitorexit => this.withTop fun top => this.op .opMonitorexit 1 [top] []
  -- constants
  | .aconstNull t => this.op .opAconstNull 1 [] [t]
  | .ldc offset vt => this.ldc offset vt
  | .bconst b => this.op (if b then .opIconst1 else .opIconst0) 1 [] [.tBool]
  | .iconst i32 => this.op (iconstOp pool i32).1 (iconstOp pool i32).2 [] [.tInt]
  | .dconst f => this.op (dconstOp pool f).1 (dconstOp pool f).2 [] [.tDouble]
  | .lconst d => this.op (lconstOp pool d).1 (lconstOp pool d).2 [] [.tLong]
  | .fconst f => this.op (fconstOp pool f).1 (fconstOp pool f).2 [] [.tFloat]
  | .sconst t offset => this.ldc offset t

/-- `export_code` -/
def exportCode (refs : Nat → Int) (this : CodeBuilder) : List Nat :=
  this.ops.flatMap (writeOpcode refs)

end CodeBuilder

end Haxe.Source.Jvm
