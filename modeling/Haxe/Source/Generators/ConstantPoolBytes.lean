import Mathlib.Algebra.Ring.Nat
import Haxe.Source.Generators.JvmConstantPool
import Haxe.Source.Generators.StackMapBytes

/-!
# The bytes of a constant

What `write` writes for a constant is read back by the class file format as that constant.
-/

namespace Haxe.Source.JvmConstantPool

open Jvm (writeByte writeUi16 b4 reads_ui16)
open Theory StackMapFormat ConstantPoolFormat

/-- The UTF-16 units of a code. -/
def units (c : UChar) : List Nat :=
  if c.val < 0x10000 then [c.val]
  else [0xD800 + (c.val - 0x10000) / 0x400, 0xDC00 + (c.val - 0x10000) % 0x400]

def utf16 (s : List UChar) : List Nat := s.flatMap fun c => units c

theorem or_tail {high low : Nat} (shift : Nat) (fits : low < 2 ^ shift) :
    high * 2 ^ shift ||| low = high * 2 ^ shift + low := by
  rw [Nat.mul_comm, Nat.two_pow_add_eq_or_of_lt fits]

theorem writeByte_tail (n : Nat) : writeByte (0x80 ||| n &&& 0x3F : Nat) = [0x80 + n % 0x40] := by
  have masked : n &&& 0x3F = n % 0x40 := Nat.and_two_pow_sub_one_eq_mod n 6
  have joined : 0x80 ||| n % 0x40 = 0x80 + n % 0x40 := @or_tail 2 (n % 0x40) 6 (by omega)
  rw [masked, joined, writeByte]
  congr 1
  omega

/-- A byte whose high bits are set before the low ones. -/
theorem writeByte_head {high low shift : Nat} (fits : low < 2 ^ shift)
    (small : high * 2 ^ shift + low < 0x100) :
    writeByte (high * 2 ^ shift ||| low : Nat) = [high * 2 ^ shift + low] := by
  rw [or_tail shift fits, writeByte]
  congr 1
  omega

section Codes

variable {b : Nat} {rest others : List Nat}

theorem read_two (shortest : b = 0 ∨ 0x80 ≤ b) (small : b ≤ 0x7FF)
    (behind : readUnits rest = some others) :
    readUnits (writeByte (0xC0 ||| b >>> 6 : Nat) ++ writeByte (0x80 ||| b &&& 0x3F : Nat) ++ rest) =
      some (b :: others) := by
  have head : writeByte (0xC0 ||| b >>> 6 : Nat) = [0xC0 + b / 0x40] := by
    rw [Nat.shiftRight_eq_div_pow]
    exact @writeByte_head 6 (b / 2 ^ 6) 5 (by omega) (by omega)
  have value : b / 0x40 * 0x40 + b % 0x40 = b := by omega
  have read := @readUnits_two rest others (b / 0x40) (b % 0x40) (by omega) (by omega) (by omega)
    behind
  rw [value] at read
  rw [head, writeByte_tail]
  exact read

theorem read_three (shortest : 0x800 ≤ b) (small : b ≤ 0xFFFF)
    (behind : readUnits rest = some others) :
    readUnits (writeByte (0xE0 ||| b >>> 12 : Nat) ++ writeByte (0x80 ||| b >>> 6 &&& 0x3F : Nat) ++
      writeByte (0x80 ||| b &&& 0x3F : Nat) ++ rest) = some (b :: others) := by
  have head : writeByte (0xE0 ||| b >>> 12 : Nat) = [0xE0 + b / 0x1000] := by
    rw [Nat.shiftRight_eq_div_pow]
    exact @writeByte_head 14 (b / 2 ^ 12) 4 (by omega) (by omega)
  have value : b / 0x1000 * 0x1000 + b / 2 ^ 6 % 0x40 * 0x40 + b % 0x40 = b := by omega
  have read := @readUnits_three rest others (b / 0x1000) (b / 2 ^ 6 % 0x40) (b % 0x40) (by omega)
    (by omega) (by omega) (by omega) behind
  rw [value] at read
  rw [head, writeByte_tail, writeByte_tail, Nat.shiftRight_eq_div_pow]
  exact read

/-- A code above the others is written as its two surrogates. -/
theorem read_pair (large : 0x10000 ≤ b) (bound : b < 0x110000)
    (behind : readUnits rest = some others) :
    readUnits (writeByte 0xED ++ writeByte (0xA0 ||| (b >>> 16 - 1) : Nat) ++
      writeByte (0x80 ||| b >>> 10 &&& 0x3F : Nat) ++ writeByte 0xED ++
      writeByte (0xB0 ||| b >>> 6 &&& 0x0F : Nat) ++ writeByte (0x80 ||| b &&& 0x3F : Nat) ++
      rest) =
      some ((0xD800 + (b - 0x10000) / 0x400) :: (0xDC00 + (b - 0x10000) % 0x400) :: others) := by
  have lead : writeByte 0xED = [0xE0 + 0xD] := rfl
  have first : writeByte (0xA0 ||| (b >>> 16 - 1) : Nat) = [0x80 + (b / 0x10000 + 0x1F)] := by
    rw [Nat.shiftRight_eq_div_pow]
    have joined := @writeByte_head 10 (b / 2 ^ 16 - 1) 4 (by omega) (by omega)
    exact joined.trans (congrArg (fun n => [n]) (by omega))
  have second : writeByte (0xB0 ||| b >>> 6 &&& 0x0F : Nat) =
      [0x80 + (b / 0x40 % 0x10 + 0x30)] := by
    have masked : b >>> 6 &&& 0x0F = b / 0x40 % 0x10 := by
      rw [Nat.shiftRight_eq_div_pow]
      exact Nat.and_two_pow_sub_one_eq_mod _ 4
    have joined := @writeByte_head 11 (b / 0x40 % 0x10) 4 (by omega) (by omega)
    rw [masked]
    exact joined.trans (congrArg (fun n => [n]) (by omega))
  have low := @readUnits_three rest others 0xD (b / 0x40 % 0x10 + 0x30) (b % 0x40) (by omega)
    (by omega) (by omega) (by omega) behind
  have high := @readUnits_three _ _ 0xD (b / 0x10000 + 0x1F) (b / 2 ^ 10 % 0x40) (by omega)
    (by omega) (by omega) (by omega) low
  have highValue : 0xD * 0x1000 + (b / 0x10000 + 0x1F) * 0x40 + b / 2 ^ 10 % 0x40 =
      0xD800 + (b - 0x10000) / 0x400 := by omega
  have lowValue : 0xD * 0x1000 + (b / 0x40 % 0x10 + 0x30) * 0x40 + b % 0x40 =
      0xDC00 + (b - 0x10000) % 0x400 := by omega
  rw [highValue, lowValue] at high
  rw [first, second, writeByte_tail, writeByte_tail, lead, Nat.shiftRight_eq_div_pow]
  exact high

end Codes

theorem utf8jvmCode_read (c : UChar) {rest others : List Nat}
    (behind : readUnits rest = some others) :
    readUnits (utf8jvmCode c.val ++ rest) = some (units c ++ others) := by
  obtain ⟨b, bound⟩ := c
  unfold utf8jvmCode units
  dsimp only
  split
  · rename_i single
    have written : writeByte b = [b] := by
      unfold writeByte
      congr 1
      omega
    rw [if_pos (by omega), written]
    exact readUnits_one single.1 (by omega) behind
  split
  · rw [if_pos (by omega)]
    exact read_two (by omega) (by omega) behind
  split
  · rw [if_pos (by omega)]
    exact read_three (by omega) (by omega) behind
  · rw [if_neg (by omega)]
    exact read_pair (by omega) bound behind

/-- The bytes of a string are those of its UTF-16 units. -/
theorem utf8jvm_read (s : List UChar) : readUnits (utf8jvm s) = some (utf16 s) := by
  unfold utf8jvm utf16
  induction s with
  | nil => rfl
  | cons c s ih =>
    rw [List.flatMap_cons, List.flatMap_cons]
    exact utf8jvmCode_read c ih

theorem reads_realI32 (n : BitVec 32) : Reads readU4 (writeRealI32 n) n := by
  intro rest
  have value : BitVec.ofNat 32 ((n.toInt / 0x1000000 % 256).toNat * 0x1000000 +
      (n.toInt / 0x10000 % 256).toNat * 0x10000 + (n.toInt / 0x100 % 256).toNat * 0x100 +
      (n.toInt % 256).toNat) = n := by
    apply BitVec.eq_of_toNat_eq
    have bound := n.isLt
    rw [BitVec.toNat_ofNat, BitVec.toInt_eq_toNat_cond]
    split <;> omega
  show some (BitVec.ofNat 32 _, rest) = _
  rw [value]

theorem reads_i64 (n : BitVec 64) : Reads readU8 (writeI64 n) n := by
  have words : (n >>> 32).setWidth 32 ++ n.setWidth 32 = n := by
    ext i below
    rw [BitVec.getElem_append]
    split
    · rw [BitVec.getElem_setWidth]
      exact BitVec.getLsbD_eq_getElem below
    · rw [BitVec.getElem_setWidth, BitVec.getLsbD_ushiftRight, Nat.add_sub_cancel' (by omega)]
      exact BitVec.getLsbD_eq_getElem below
  have read := reads_u8 (reads_realI32 ((n >>> 32).setWidth 32)) (reads_realI32 (n.setWidth 32))
  rw [words] at read
  exact read

/-- The constant that is read from what `write` writes. -/
@[grind =] def JvmConstant.written : JvmConstant → Info
  | .constUtf8 s => .utf8 (utf16 s)
  | .constInt i32 => .integer i32
  | .constFloat f => .float (if OFloat.isNan f then 0x7f800001 else bitsOfFloat f)
  | .constLong i64 => .long i64
  | .constDouble f => .double f
  | .constClass offset => .classRef offset.toNat
  | .constString offset => .string offset.toNat
  | .constFieldref offset1 offset2 => .fieldref offset1.toNat offset2.toNat
  | .constMethodref offset1 offset2 => .methodref offset1.toNat offset2.toNat
  | .constInterfaceMethodref offset1 offset2 => .interfaceMethodref offset1.toNat offset2.toNat
  | .constNameAndType offset1 offset2 => .nameAndType offset1.toNat offset2.toNat
  | .constMethodHandle i offset => .methodHandle (i % 256).toNat offset.toNat
  | .constMethodType offset => .methodType offset.toNat
  | .constInvokeDynamic offset1 offset2 => .invokeDynamic offset1.toNat offset2.toNat

theorem width_written (c : JvmConstant) : c.written.width = c.width := by
  cases c <;> rfl

namespace OFloat

variable (f : OFloat)

theorem toNat_magnitude : (f &&& 0x7fffffffffffffff).toNat = f.toNat % 0x8000000000000000 := by
  rw [BitVec.toNat_and]
  exact Nat.and_two_pow_sub_one_eq_mod f.toNat 63

theorem msb_iff : f.msb = true ↔ 0x8000000000000000 ≤ f.toNat := by
  rw [BitVec.msb_eq_decide, decide_eq_true_iff]

/-- Two floats are of one magnitude and of one sign only if they are the same. -/
theorem eq_of_magnitude {f g : OFloat}
    (magnitude : f &&& 0x7fffffffffffffff = g &&& 0x7fffffffffffffff)
    (sign : f.msb = g.msb) : f = g := by
  have sizes := congrArg BitVec.toNat magnitude
  have signs : 0x8000000000000000 ≤ f.toNat ↔ 0x8000000000000000 ≤ g.toNat := by
    rw [← msb_iff, ← msb_iff, sign]
  rw [toNat_magnitude, toNat_magnitude] at sizes
  have below := f.isLt
  have below' := g.isLt
  apply BitVec.eq_of_toNat_eq
  omega

end OFloat

/-- The bits of a float that is not a number are not kept. -/
theorem reads_float (f : OFloat) :
    Reads readU4
      (if OFloat.isNan f then writeRealI32 0x7f800001
        else if OFloat.isInfinite f then
          if f.msb then writeRealI32 0xff800000 else writeRealI32 0x7f800000
        else writeRealI32 (bitsOfFloat f))
      (if OFloat.isNan f then 0x7f800001 else bitsOfFloat f) := by
  split
  · exact reads_realI32 _
  split
  · rename_i infinite
    have magnitude : f &&& 0x7fffffffffffffff = 0x7ff0000000000000 := of_decide_eq_true infinite
    split
    · rename_i negative
      have f_eq : f = 0xfff0000000000000 := OFloat.eq_of_magnitude magnitude negative
      rw [f_eq]
      exact reads_realI32 0xff800000
    · rename_i positive
      have f_eq : f = 0x7ff0000000000000 :=
        OFloat.eq_of_magnitude magnitude (eq_false_of_ne_true positive)
      rw [f_eq]
      exact reads_realI32 0x7f800000
  · exact reads_realI32 _

/-- A constant that is made of one index. -/
theorem reads_index {tag : Int} {offset : Int} {bytes : List Nat} {info : Nat → Info}
    (written : (do return writeByte tag ++ (← writeUi16 offset)) = some bytes)
    (read : ∀ rest, readInfo (writeByte tag ++ rest) = mapped readU2 info rest) :
    Reads readInfo bytes (info offset.toNat) := by
  obtain ⟨number, index, written⟩ := Option.bind_eq_some_iff.mp written
  obtain rfl := Option.some.inj written
  intro rest
  rw [List.append_assoc, read]
  exact reads_mapped info (reads_ui16 index).2.2 rest

/-- A constant that is made of two indices. -/
theorem reads_indices {tag : Int} {offset1 offset2 : Int} {bytes : List Nat}
    {info : Nat → Nat → Info}
    (written : (do return writeByte tag ++ (← writeUi16 offset1) ++ (← writeUi16 offset2)) =
      some bytes)
    (read : ∀ rest, readInfo (writeByte tag ++ rest) = readPair readU2 readU2 info rest) :
    Reads readInfo bytes (info offset1.toNat offset2.toNat) := by
  obtain ⟨first, index1, written⟩ := Option.bind_eq_some_iff.mp written
  obtain ⟨second, index2, written⟩ := Option.bind_eq_some_iff.mp written
  obtain rfl := Option.some.inj written
  intro rest
  rw [List.append_assoc, List.append_assoc, read, ← List.append_assoc]
  exact reads_pair info (reads_ui16 index1).2.2 (reads_ui16 index2).2.2 rest

theorem reads_constant {c : JvmConstant} {bytes : List Nat}
    (written : writeConstant c = some bytes) : Reads readInfo bytes c.written := by
  cases c with
  | constUtf8 s =>
    obtain ⟨length, counted, written⟩ := Option.bind_eq_some_iff.mp written
    obtain rfl := Option.some.inj written
    have count := (reads_ui16 counted).2.2
    rw [Int.toNat_natCast] at count
    intro rest
    rw [List.append_assoc, List.append_assoc, ← List.append_assoc length]
    exact reads_mapped Info.utf8 (reads_text count (utf8jvm_read s)) rest
  | constInt i32 =>
    obtain rfl := Option.some.inj written
    exact fun rest => reads_mapped Info.integer (reads_realI32 i32) rest
  | constFloat f =>
    obtain rfl := Option.some.inj written
    exact fun rest => reads_mapped Info.float (reads_float f) rest
  | constLong i64 =>
    obtain rfl := Option.some.inj written
    exact fun rest => reads_mapped Info.long (reads_i64 i64) rest
  | constDouble f =>
    obtain rfl := Option.some.inj written
    exact fun rest => reads_mapped Info.double (reads_i64 f) rest
  | constClass offset => exact reads_index written fun _ => rfl
  | constString offset => exact reads_index written fun _ => rfl
  | constFieldref offset1 offset2 => exact reads_indices written fun _ => rfl
  | constMethodref offset1 offset2 => exact reads_indices written fun _ => rfl
  | constInterfaceMethodref offset1 offset2 => exact reads_indices written fun _ => rfl
  | constNameAndType offset1 offset2 => exact reads_indices written fun _ => rfl
  | constMethodHandle i offset =>
    obtain ⟨number, index, written⟩ := Option.bind_eq_some_iff.mp written
    obtain rfl := Option.some.inj written
    have kind : Reads readU1 (writeByte i) (i % 256).toNat := fun rest => rfl
    intro rest
    rw [List.append_assoc, List.append_assoc, ← List.append_assoc (writeByte i)]
    exact reads_pair Info.methodHandle kind (reads_ui16 index).2.2 rest
  | constMethodType offset => exact reads_index written fun _ => rfl
  | constInvokeDynamic offset1 offset2 => exact reads_indices written fun _ => rfl

/-- The bits of a single that is not a number. -/
def singleNan (bits : BitVec 32) : Bool := 0x7f800000 < (bits &&& 0x7fffffff)

/-- The single that a float stands for. -/
def SingleOf (f : OFloat) (bits : BitVec 32) : Prop :=
  if OFloat.isNan f then singleNan bits = true else bits = bitsOfFloat f

def DoubleOf (f : OFloat) (bits : BitVec 64) : Prop :=
  if OFloat.isNan f then OFloat.isNan bits = true else bits = f

/-- The constant of a class file is the one that was added. -/
def JvmConstant.Means : JvmConstant → Info → Prop
  | .constUtf8 s, .utf8 units => units = utf16 s
  | .constInt i32, .integer bits => bits = i32
  | .constFloat f, .float bits => SingleOf f bits
  | .constLong i64, .long bits => bits = i64
  | .constDouble f, .double bits => DoubleOf f bits
  | .constClass offset, .classRef name => name = offset
  | .constString offset, .string text => text = offset
  | .constFieldref offset1 offset2, .fieldref owner nameAndType =>
    owner = offset1 ∧ nameAndType = offset2
  | .constMethodref offset1 offset2, .methodref owner nameAndType =>
    owner = offset1 ∧ nameAndType = offset2
  | .constInterfaceMethodref offset1 offset2, .interfaceMethodref owner nameAndType =>
    owner = offset1 ∧ nameAndType = offset2
  | .constNameAndType offset1 offset2, .nameAndType name descriptor =>
    name = offset1 ∧ descriptor = offset2
  | .constMethodHandle i offset, .methodHandle kind reference => kind = i ∧ reference = offset
  | .constMethodType offset, .methodType descriptor => descriptor = offset
  | .constInvokeDynamic offset1 offset2, .invokeDynamic bootstrap nameAndType =>
    bootstrap = offset1 ∧ nameAndType = offset2
  | _, _ => False

/-- The kind of a method handle is written as a byte. -/
def JvmConstant.KindFits : JvmConstant → Prop
  | .constMethodHandle i _ => 0 ≤ i ∧ i < 256
  | _ => True

/-- The bits of a float that is not a number are never those of a single that is one. -/
theorem singleOf_bits (f : OFloat) : SingleOf f (bitsOfFloat f) := by
  unfold SingleOf
  split
  · rename_i nan
    unfold bitsOfFloat
    dsimp only
    rw [if_pos nan]
    have large : 0x7fc00000 ≤ 0x7fc00000 ||| (f.toNat % 0x10000000000000) >>> 29 := Nat.left_le_or
    have small : 0x7fc00000 ||| (f.toNat % 0x10000000000000) >>> 29 < 2 ^ 31 := by
      apply Nat.or_lt_two_pow (by omega)
      rw [Nat.shiftRight_eq_div_pow]
      omega
    have signs : f.toNat >>> 63 <<< 31 = f.toNat / 2 ^ 63 * 2 ^ 31 := by
      rw [Nat.shiftRight_eq_div_pow, Nat.shiftLeft_eq]
    apply decide_eq_true
    rw [BitVec.lt_def, BitVec.toNat_and, BitVec.toNat_ofNat, signs]
    show 0x7f800000 < _ &&& 0x7fffffff
    rw [Nat.and_two_pow_sub_one_eq_mod _ 31]
    omega
  · rfl

theorem singleOf_written (f : OFloat) :
    SingleOf f (if OFloat.isNan f then 0x7f800001 else bitsOfFloat f) := by
  unfold SingleOf
  split
  · decide
  · rfl

theorem doubleOf_self (f : OFloat) : DoubleOf f f := by
  unfold DoubleOf
  split
  · assumption
  · rfl

theorem toNat_of_index {tag offset : Int} {bytes : List Nat}
    (written : (do return writeByte tag ++ (← writeUi16 offset)) = some bytes) :
    (offset.toNat : Int) = offset := by
  obtain ⟨number, index, -⟩ := Option.bind_eq_some_iff.mp written
  exact Int.toNat_of_nonneg (reads_ui16 index).1

theorem toNat_of_indices {front : List Nat} {offset1 offset2 : Int} {bytes : List Nat}
    (written : (do return front ++ (← writeUi16 offset1) ++ (← writeUi16 offset2)) =
      some bytes) :
    (offset1.toNat : Int) = offset1 ∧ (offset2.toNat : Int) = offset2 := by
  obtain ⟨first, index1, written⟩ := Option.bind_eq_some_iff.mp written
  obtain ⟨second, index2, -⟩ := Option.bind_eq_some_iff.mp written
  exact ⟨Int.toNat_of_nonneg (reads_ui16 index1).1, Int.toNat_of_nonneg (reads_ui16 index2).1⟩

/-- A constant of which the bits are not promised. -/
def JvmConstant.IsNan : JvmConstant → Prop
  | .constFloat f | .constDouble f => OFloat.isNan f = true
  | _ => False

/-- The zeros of one kind and of both signs. -/
def JvmConstant.OppositeZeros : JvmConstant → JvmConstant → Prop
  | .constFloat f, .constFloat g | .constDouble f, .constDouble g =>
    OFloat.isZero f = true ∧ OFloat.isZero g = true ∧ f ≠ g
  | _, _ => False

theorem OFloat.not_zero_of_nan {f : OFloat} (nan : OFloat.isNan f = true) :
    ¬ OFloat.isZero f = true := by
  intro zero
  have magnitude : f &&& 0x7fffffffffffffff = 0 := of_decide_eq_true zero
  unfold OFloat.isNan at nan
  rw [magnitude] at nan
  exact absurd nan (by decide)

theorem isNan_floatKey (f : OFloat) : OFloat.isNan (floatKey f) = OFloat.isNan f := by
  unfold floatKey
  split
  · rename_i nan
    rw [nan]
    decide
  split
  · rename_i number _
    rw [eq_false_of_ne_true number]
    decide
  · rfl

theorem isZero_floatKey (f : OFloat) : OFloat.isZero (floatKey f) = OFloat.isZero f := by
  unfold floatKey
  split
  · rename_i nan
    rw [eq_false_of_ne_true (OFloat.not_zero_of_nan nan)]
    decide
  split
  · rename_i zero
    rw [zero]
    decide
  · rfl

/-- Floats that `compare` does not tell apart. -/
theorem floatKey_eq_iff {f g : OFloat} :
    floatKey f = floatKey g ↔
      f = g ∨ OFloat.isNan f = true ∧ OFloat.isNan g = true ∨
        OFloat.isZero f = true ∧ OFloat.isZero g = true := by
  constructor
  · intro equal
    have nans := congrArg OFloat.isNan equal
    have zeros := congrArg OFloat.isZero equal
    rw [isNan_floatKey, isNan_floatKey] at nans
    rw [isZero_floatKey, isZero_floatKey] at zeros
    by_cases nan : OFloat.isNan f = true
    · exact .inr (.inl ⟨nan, nans.symm.trans nan⟩)
    by_cases zero : OFloat.isZero f = true
    · exact .inr (.inr ⟨zero, zeros.symm.trans zero⟩)
    unfold floatKey at equal
    rw [if_neg nan, if_neg zero, ← nans, ← zeros, if_neg nan, if_neg zero] at equal
    exact .inl equal
  · rintro (rfl | ⟨nan, nan'⟩ | ⟨zero, zero'⟩)
    · rfl
    · unfold floatKey
      rw [if_pos nan, if_pos nan']
    · have number : ¬ OFloat.isNan f = true := fun nan => OFloat.not_zero_of_nan nan zero
      have number' : ¬ OFloat.isNan g = true := fun nan => OFloat.not_zero_of_nan nan zero'
      unfold floatKey
      rw [if_neg number, if_neg number', if_pos zero, if_pos zero']

theorem singleOf_nan {f g : OFloat} (nan : OFloat.isNan f = true) (nan' : OFloat.isNan g = true)
    (bits : BitVec 32) : SingleOf f bits ↔ SingleOf g bits := by
  unfold SingleOf
  rw [if_pos nan, if_pos nan']

theorem doubleOf_nan {f g : OFloat} (nan : OFloat.isNan f = true) (nan' : OFloat.isNan g = true)
    (bits : BitVec 64) : DoubleOf f bits ↔ DoubleOf g bits := by
  unfold DoubleOf
  rw [if_pos nan, if_pos nan']

/-- Constants of one index are the same, or both not a number, or the two zeros of a kind. -/
theorem key_cases {c c' : JvmConstant} (equal : c.key = c'.key) :
    c = c' ∨ (c.IsNan ∧ c'.IsNan ∧ ∀ info, c.Means info ↔ c'.Means info) ∨
      c.OppositeZeros c' := by
  cases c with
  | constFloat f =>
    cases c' with
    | constFloat g =>
      rcases floatKey_eq_iff.mp (JvmConstant.constFloat.inj equal) with
        rfl | ⟨nan, nan'⟩ | ⟨zero, zero'⟩
      · exact .inl rfl
      · refine .inr (.inl ⟨nan, nan', fun info => ?_⟩)
        cases info with
        | float bits => exact singleOf_nan nan nan' bits
        | _ => exact Iff.rfl
      · by_cases same : f = g
        · exact .inl (congrArg _ same)
        · exact .inr (.inr ⟨zero, zero', same⟩)
    | _ => cases equal
  | constDouble f =>
    cases c' with
    | constDouble g =>
      rcases floatKey_eq_iff.mp (JvmConstant.constDouble.inj equal) with
        rfl | ⟨nan, nan'⟩ | ⟨zero, zero'⟩
      · exact .inl rfl
      · refine .inr (.inl ⟨nan, nan', fun info => ?_⟩)
        cases info with
        | double bits => exact doubleOf_nan nan nan' bits
        | _ => exact Iff.rfl
      · by_cases same : f = g
        · exact .inl (congrArg _ same)
        · exact .inr (.inr ⟨zero, zero', same⟩)
    | _ => cases equal
  | _ =>
    cases c' with
    | constFloat g => cases equal
    | constDouble g => cases equal
    | _ => exact .inl equal

/-- What is read means what was written, unless the kind of a method handle was cut. -/
theorem means_written_iff {c : JvmConstant} {bytes : List Nat}
    (written : writeConstant c = some bytes) : c.Means c.written ↔ c.KindFits := by
  cases c with
  | constMethodHandle i offset =>
    obtain ⟨number, index, -⟩ := Option.bind_eq_some_iff.mp written
    have positive := (reads_ui16 index).1
    show ((i % 256).toNat : Int) = i ∧ (offset.toNat : Int) = offset ↔ 0 ≤ i ∧ i < 256
    omega
  | constUtf8 s => exact iff_of_true rfl trivial
  | constInt i32 => exact iff_of_true rfl trivial
  | constFloat f => exact iff_of_true (singleOf_written f) trivial
  | constLong i64 => exact iff_of_true rfl trivial
  | constDouble f => exact iff_of_true (doubleOf_self f) trivial
  | constClass offset => exact iff_of_true (toNat_of_index written) trivial
  | constString offset => exact iff_of_true (toNat_of_index written) trivial
  | constMethodType offset => exact iff_of_true (toNat_of_index written) trivial
  | _ offset1 offset2 => exact iff_of_true (toNat_of_indices written) trivial

end Haxe.Source.JvmConstantPool
