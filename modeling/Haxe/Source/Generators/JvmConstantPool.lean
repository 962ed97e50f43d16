import Haxe.Source.Generators.JvmCode
import Haxe.Theory.ClassFileFormat

/-!
# The constant pool of the JVM generator

`jvmConstantPool.ml`, and the methods of `jvmCode.ml` that load constants through it. A `float`
is given by its bits, as `Int64.bits_of_float` has them, and a string by its codes.
-/

namespace Haxe.Source.JvmConstantPool

open Jvm (writeByte writeUi16 b4 JOpcode)
open Jvm.CodeBuilder (getNumericRange)

/-- A code of a string; lone surrogates are among them. -/
abbrev UChar := Fin 0x110000

/-- `float` -/
abbrev OFloat := BitVec 64

namespace OFloat

def isNan (f : OFloat) : Bool := 0x7ff0000000000000 < (f &&& 0x7fffffffffffffff)

/-- `f = 0.0`, which holds of both zeros. -/
def isZero (f : OFloat) : Bool := (f &&& 0x7fffffffffffffff) = 0

/-- `classify_float f = FP_infinite` -/
def isInfinite (f : OFloat) : Bool := (f &&& 0x7fffffffffffffff) = 0x7ff0000000000000

def one : OFloat := 0x3ff0000000000000

def two : OFloat := 0x4000000000000000

def positiveZero : OFloat := 0

def negativeZero : OFloat := 0x8000000000000000

end OFloat

/-- A quotient by a power of two, rounded to the nearest one, and to the even one of two. -/
def roundShift (m s : Nat) : Nat :=
  let quotient := m >>> s
  let twice := 2 * (m - quotient <<< s)
  if 1 <<< s < twice ∨ twice = 1 <<< s ∧ quotient % 2 = 1 then quotient + 1 else quotient

/-- `Int32.bits_of_float`, which rounds to single precision. What is not a number keeps its high
bits and is made quiet. -/
def bitsOfFloat (f : OFloat) : BitVec 32 :=
  let exponent := (f.toNat >>> 52) % 0x800
  let fraction := f.toNat % 0x10000000000000
  let sign := (f.toNat >>> 63) <<< 31
  let mantissa := if exponent = 0 then fraction else fraction + 0x10000000000000
  -- below the exponent 897 the single is a subnormal one
  let rounded := roundShift mantissa (29 + (897 - exponent))
  let magnitude := rounded + (exponent - 897) * 0x800000
  if OFloat.isNan f then BitVec.ofNat 32 (sign + (0x7fc00000 ||| fraction >>> 29))
  else BitVec.ofNat 32 (sign + min magnitude 0x7f800000)

/-- `jvm_constant` -/
inductive JvmConstant where
  | constUtf8 (s : List UChar)
  | constInt (i32 : BitVec 32)
  | constFloat (f : OFloat)
  | constLong (i64 : BitVec 64)
  | constDouble (f : OFloat)
  | constClass (offset : Int)
  | constString (offset : Int)
  | constFieldref (offset1 offset2 : Int)
  | constMethodref (offset1 offset2 : Int)
  | constInterfaceMethodref (offset1 offset2 : Int)
  | constNameAndType (offset1 offset2 : Int)
  | constMethodHandle (i : Int) (offset : Int)
  | constMethodType (offset : Int)
  | constInvokeDynamic (offset1 offset2 : Int)
  deriving DecidableEq, Repr

/-- `write_real_i32` -/
def writeRealI32 (n : BitVec 32) : List Nat := b4 n.toInt

/-- `IO.BigEndian.write_i64` -/
def writeI64 (n : BitVec 64) : List Nat :=
  writeRealI32 ((n >>> 32).setWidth 32) ++ writeRealI32 (n.setWidth 32)

/-- `IO.BigEndian.write_double` -/
def writeDouble (f : OFloat) : List Nat := writeI64 f

/-- The bytes of a code in `utf8jvm`. -/
def utf8jvmCode (b : Nat) : List Nat :=
  if b > 0 ∧ b ≤ 0x7F then writeByte b
  else if b ≤ 0x7FF then
    writeByte (0xC0 ||| b >>> 6 : Nat) ++ writeByte (0x80 ||| b &&& 0x3F : Nat)
  else if b ≤ 0xFFFF then
    writeByte (0xE0 ||| b >>> 12 : Nat) ++ writeByte (0x80 ||| b >>> 6 &&& 0x3F : Nat) ++
      writeByte (0x80 ||| b &&& 0x3F : Nat)
  else
    writeByte 0xED ++ writeByte (0xA0 ||| (b >>> 16 - 1) : Nat) ++
      writeByte (0x80 ||| b >>> 10 &&& 0x3F : Nat) ++ writeByte 0xED ++
      writeByte (0xB0 ||| b >>> 6 &&& 0x0F : Nat) ++ writeByte (0x80 ||| b &&& 0x3F : Nat)

def utf8jvm (input : List UChar) : List Nat := input.flatMap fun c => utf8jvmCode c.val

/-- What `write` writes for a constant, if nothing overflows. -/
def writeConstant : JvmConstant → Option (List Nat)
  | .constUtf8 s => do
    return writeByte 1 ++ (← writeUi16 (utf8jvm s).length) ++ utf8jvm s
  | .constInt i32 => some (writeByte 3 ++ writeRealI32 i32)
  | .constFloat f =>
    some (writeByte 4 ++
      if OFloat.isNan f then writeRealI32 0x7f800001
      else if OFloat.isInfinite f then
        if f.msb then writeRealI32 0xff800000 else writeRealI32 0x7f800000
      else writeRealI32 (bitsOfFloat f))
  | .constLong i64 => some (writeByte 5 ++ writeI64 i64)
  | .constDouble d => some (writeByte 6 ++ writeDouble d)
  | .constClass offset => do return writeByte 7 ++ (← writeUi16 offset)
  | .constString offset => do return writeByte 8 ++ (← writeUi16 offset)
  | .constFieldref offset1 offset2 => do
    return writeByte 9 ++ (← writeUi16 offset1) ++ (← writeUi16 offset2)
  | .constMethodref offset1 offset2 => do
    return writeByte 10 ++ (← writeUi16 offset1) ++ (← writeUi16 offset2)
  | .constInterfaceMethodref offset1 offset2 => do
    return writeByte 11 ++ (← writeUi16 offset1) ++ (← writeUi16 offset2)
  | .constNameAndType offset1 offset2 => do
    return writeByte 12 ++ (← writeUi16 offset1) ++ (← writeUi16 offset2)
  | .constMethodHandle i offset => do
    return writeByte 15 ++ writeByte i ++ (← writeUi16 offset)
  | .constMethodType offset => do return writeByte 16 ++ (← writeUi16 offset)
  | .constInvokeDynamic offset1 offset2 => do
    return writeByte 18 ++ (← writeUi16 offset1) ++ (← writeUi16 offset2)

/-- A float up to `compare`, for which the zeros are equal, and all that is not a number. -/
def floatKey (f : OFloat) : OFloat :=
  if OFloat.isNan f then 0x7ff0000000000001 else if OFloat.isZero f then 0 else f

/-- A constant up to the equality of a `Hashtbl`. -/
def JvmConstant.key : JvmConstant → JvmConstant
  | .constFloat f => .constFloat (floatKey f)
  | .constDouble f => .constDouble (floatKey f)
  | const => const

/-- How many indices `add` takes for a constant. -/
def JvmConstant.width : JvmConstant → Nat
  | .constDouble _ | .constLong _ => 2
  | _ => 1

/-- `constant_pool` -/
structure ConstantPool where
  pool : List JvmConstant
  lut : List (JvmConstant × Nat)
  luti : List (Nat × Nat)
  nextIndex : Nat
  closed : Bool

namespace ConstantPool

def create : ConstantPool := ⟨[], [], [], 1, false⟩

/-- `Hashtbl.find lut` -/
def find (this : ConstantPool) (const : JvmConstant) : Option Nat :=
  (this.lut.find? fun entry => entry.1.key = const.key).map Prod.snd

/-- The branch of `add` for a constant that is not found. -/
def append (this : ConstantPool) (const : JvmConstant) : ConstantPool :=
  { this with
    pool := this.pool ++ [const]
    lut := (const, this.nextIndex) :: this.lut
    luti := (this.nextIndex, this.pool.length) :: this.luti
    nextIndex := this.nextIndex + const.width }

/-- `add`, which asserts that the pool is open where it appends. -/
def add (this : ConstantPool) (const : JvmConstant) : Option (Nat × ConstantPool) :=
  match this.find const with
  | some i => some (i, this)
  | none => if this.closed then none else some (this.nextIndex, this.append const)

/-- `get`, where `Hashtbl.find` and `DynArray.get` may fail. -/
def get (this : ConstantPool) (i : Nat) : Option JvmConstant :=
  (this.luti.lookup i).bind (this.pool[·]?)

def write (this : ConstantPool) : Option (List Nat) := do
  let count ← writeUi16 this.nextIndex
  return count ++ (← this.pool.mapM writeConstant).flatten

def close (this : ConstantPool) : Option (List Nat × ConstantPool) :=
  this.write.map fun bytes => (bytes, { this with closed := true })

/-- The instruction that `iconst` chooses, with its length. -/
def iconst (this : ConstantPool) (i32 : BitVec 32) : Option ((JOpcode × Nat) × ConstantPool) :=
  let i := i32.toInt
  if i = -1 then some ((.opIconstM1, 1), this)
  else if i = 0 then some ((.opIconst0, 1), this)
  else if i = 1 then some ((.opIconst1, 1), this)
  else if i = 2 then some ((.opIconst2, 1), this)
  else if i = 3 then some ((.opIconst3, 1), this)
  else if i = 4 then some ((.opIconst4, 1), this)
  else if i = 5 then some ((.opIconst5, 1), this)
  else match getNumericRange i with
    | .int8Range => some ((.opBipush i, 2), this)
    | .int16Range => some ((.opSipush i, 3), this)
    | .int32Range => (this.add (.constInt i32)).map fun (offset, this) =>
      (if offset < 0xFF then (.opLdc offset, 2) else (.opLdcW offset, 3), this)

def dconst (this : ConstantPool) (f : OFloat) : Option ((JOpcode × Nat) × ConstantPool) :=
  if OFloat.isZero f then some ((.opDconst0, 1), this)
  else if f = OFloat.one then some ((.opDconst1, 1), this)
  else (this.add (.constDouble f)).map fun (offset, this) => ((.opLdc2W offset, 3), this)

def lconst (this : ConstantPool) (d : BitVec 64) : Option ((JOpcode × Nat) × ConstantPool) :=
  if d = 0 then some ((.opLconst0, 1), this)
  else if d = 1 then some ((.opLconst1, 1), this)
  else (this.add (.constLong d)).map fun (offset, this) => ((.opLdc2W offset, 3), this)

def fconst (this : ConstantPool) (f : OFloat) : Option ((JOpcode × Nat) × ConstantPool) :=
  if OFloat.isZero f then some ((.opFconst0, 1), this)
  else if f = OFloat.one then some ((.opFconst1, 1), this)
  else if f = OFloat.two then some ((.opFconst2, 1), this)
  else (this.add (.constFloat f)).map fun (offset, this) => ((.opLdcW offset, 3), this)

end ConstantPool

/-- What is asked of a pool. -/
inductive Request where
  | add (const : JvmConstant)
  | iconst (i32 : BitVec 32)
  | lconst (d : BitVec 64)
  | fconst (f : OFloat)
  | dconst (f : OFloat)
  deriving DecidableEq, Repr

/-- The index of a constant, or the instruction that loads it with its length. -/
inductive Answer where
  | index (i : Nat)
  | instruction (op : JOpcode × Nat)

namespace ConstantPool

@[grind =] def request (this : ConstantPool) : Request → Option (Answer × ConstantPool)
  | .add const => (this.add const).map fun (i, this) => (.index i, this)
  | .iconst i32 => (this.iconst i32).map fun (op, this) => (.instruction op, this)
  | .lconst d => (this.lconst d).map fun (op, this) => (.instruction op, this)
  | .fconst f => (this.fconst f).map fun (op, this) => (.instruction op, this)
  | .dconst f => (this.dconst f).map fun (op, this) => (.instruction op, this)

/-- Any requests in a row, with the answers. -/
def requests (this : ConstantPool) :
    List Request → Option (List (Request × Answer) × ConstantPool)
  | [] => some ([], this)
  | first :: others => do
    let (answer, this) ← this.request first
    let (answers, this) ← this.requests others
    return ((first, answer) :: answers, this)

end ConstantPool

end Haxe.Source.JvmConstantPool
