import Haxe.Source.Generators.JvmMethod

/-!
# Opcodes of the JVM generator

The opcodes of `jvmData.ml` and `write_opcode` of `jvmWriter.ml`. The offset of a branch is a
reference, whose value is looked up when the opcode is written.
-/

namespace Haxe.Source.Jvm

/-- `jcmp` -/
inductive JCmp where
  | cmpEq | cmpNe | cmpLt | cmpGe | cmpGt | cmpLe
  deriving DecidableEq, Repr

inductive OpWide where
  | opWIinc (i1 i2 : Int)
  | opWIload (i : Int)
  | opWFload (i : Int)
  | opWAload (i : Int)
  | opWLload (i : Int)
  | opWDload (i : Int)
  | opWIstore (i : Int)
  | opWFstore (i : Int)
  | opWAstore (i : Int)
  | opWLstore (i : Int)
  | opWDstore (i : Int)

/-- `jopcode`, with the reference of a branch given by its number. -/
inductive JOpcode where
  -- double
  | opD2f | opD2i | opD2l | opDadd | opDaload | opDastore | opDcmpg | opDcmpl | opDdiv
  | opDconst0 | opDconst1 | opDload0 | opDload1 | opDload2 | opDload3
  | opDload (i : Int)
  | opDmul | opDneg | opDrem | opDreturn | opDstore0 | opDstore1 | opDstore2 | opDstore3
  | opDstore (i : Int)
  | opDsub
  -- float
  | opF2d | opF2i | opF2l | opFadd | opFaload | opFastore | opFcmpg | opFcmpl | opFdiv
  | opFconst0 | opFconst1 | opFconst2 | opFload0 | opFload1 | opFload2 | opFload3
  | opFload (i : Int)
  | opFmul | opFneg | opFrem | opFreturn | opFstore0 | opFstore1 | opFstore2 | opFstore3
  | opFstore (i : Int)
  | opFsub
  -- int
  | opI2b | opI2c | opI2d | opI2f | opI2l | opI2s | opIadd | opIaload | opIand | opIastore
  | opIconstM1 | opIconst0 | opIconst1 | opIconst2 | opIconst3 | opIconst4 | opIconst5 | opIdiv
  | opIload0 | opIload1 | opIload2 | opIload3
  | opIload (i : Int)
  | opImul | opIneg | opIor | opIrem | opIreturn | opIshl | opIshr | opIstore0 | opIstore1
  | opIstore2 | opIstore3
  | opIstore (i : Int)
  | opIsub | opIushr | opIxor
  -- long
  | opL2d | opL2f | opL2i | opLadd | opLaload | opLand | opLastore | opLconst0 | opLconst1
  | opLcmp | opLdiv | opLload0 | opLload1 | opLload2 | opLload3
  | opLload (i : Int)
  | opLmul | opLneg | opLor | opLrem | opLreturn | opLshl | opLshr | opLstore0 | opLstore1
  | opLstore2 | opLstore3
  | opLstore (i : Int)
  | opLsub | opLushr | opLxor
  -- short
  | opSaload | opSastore
  | opSipush (i : Int)
  -- array
  | opAaload | opAastore
  | opAnewarray (offset : Int)
  | opArraylength | opBaload | opBastore
  | opBipush (i : Int)
  | opCaload | opCastore
  | opMultianewarray (offset : Int) (d : Int)
  | opNewarray (t : Int)
  -- reference
  | opAload0 | opAload1 | opAload2 | opAload3
  | opAload (i : Int)
  | opAreturn | opAstore0 | opAstore1 | opAstore2 | opAstore3
  | opAstore (i : Int)
  -- object
  | opNew (offset : Int)
  | opInstanceof (offset : Int)
  | opCheckcast (offset : Int)
  | opInvokedynamic (offset : Int)
  | opInvokeinterface (offset : Int) (c : Int)
  | opInvokespecial (offset : Int)
  | opInvokestatic (offset : Int)
  | opInvokevirtual (offset : Int)
  | opGetfield (offset : Int)
  | opGetstatic (offset : Int)
  | opPutfield (offset : Int)
  | opPutstatic (offset : Int)
  -- branching
  | opIfAcmpeq (i : Nat)
  | opIfAcmpne (i : Nat)
  | opIfIcmp (cmp : JCmp) (i : Nat)
  | opIf (cmp : JCmp) (i : Nat)
  | opIfnonnull (i : Nat)
  | opIfnull (i : Nat)
  | opGoto (i : Nat)
  | opGotoW (i : Nat)
  | opJsr (i : Nat)
  | opJsrW (i : Nat)
  -- stack
  | opAconstNull | opDup | opDupX1 | opDupX2 | opDup2 | opDup2X1 | opDup2X2
  | opLdc (i : Int)
  | opLdcW (i : Int)
  | opLdc2W (i : Int)
  | opNop | opPop | opPop2 | opSwap
  -- other
  | opAthrow
  | opIinc (i c : Int)
  | opLookupswitch (pad : Nat) (byDefault : Nat) (pairs : List (Int × Nat))
  | opTableswitch (pad : Nat) (byDefault : Nat) (low high : Int) (offsets : List Nat)
  | opMonitorenter | opMonitorexit
  | opRet (i : Int)
  | opReturn
  | opWide (op : OpWide)

/-- The two lowest bytes of a number. -/
def bp (i : Int) : List Nat := writeByte (i / 0x100) ++ writeByte i

def b4 (i : Int) : List Nat :=
  writeByte (i / 0x1000000) ++ writeByte (i / 0x10000) ++ writeByte (i / 0x100) ++ writeByte i

/-- `b4` of an `Int32.t`. -/
def b4r (i32 : Int) : List Nat := b4 i32

def ifIcmpCode : JCmp → Int
  | .cmpEq => 0x9f
  | .cmpNe => 0xa0
  | .cmpLt => 0xa1
  | .cmpGe => 0xa2
  | .cmpGt => 0xa3
  | .cmpLe => 0xa4

def ifCode : JCmp → Int
  | .cmpEq => 0x99
  | .cmpNe => 0x9a
  | .cmpLt => 0x9b
  | .cmpGe => 0x9c
  | .cmpGt => 0x9d
  | .cmpLe => 0x9e

def writeWide : OpWide → List Nat
  | .opWIinc i1 i2 => writeByte 0x84 ++ bp i1 ++ bp i2
  | .opWIload i => writeByte 0x15 ++ bp i
  | .opWFload i => writeByte 0x17 ++ bp i
  | .opWAload i => writeByte 0x19 ++ bp i
  | .opWLload i => writeByte 0x16 ++ bp i
  | .opWDload i => writeByte 0x18 ++ bp i
  | .opWIstore i => writeByte 0x36 ++ bp i
  | .opWFstore i => writeByte 0x38 ++ bp i
  | .opWAstore i => writeByte 0x3a ++ bp i
  | .opWLstore i => writeByte 0x37 ++ bp i
  | .opWDstore i => writeByte 0x39 ++ bp i

/-- `write_opcode`, where `refs` are the values of the references. -/
@[grind =] def writeOpcode (refs : Nat → Int) : JOpcode → List Nat
  -- double
  | .opD2f => writeByte 0x90
  | .opD2i => writeByte 0x8e
  | .opD2l => writeByte 0x8f
  | .opDadd => writeByte 0x63
  | .opDaload => writeByte 0x31
  | .opDastore => writeByte 0x52
  | .opDcmpg => writeByte 0x98
  | .opDcmpl => writeByte 0x97
  | .opDdiv => writeByte 0x6f
  | .opDconst0 => writeByte 0xe
  | .opDconst1 => writeByte 0xf
  | .opDload0 => writeByte 0x26
  | .opDload1 => writeByte 0x27
  | .opDload2 => writeByte 0x28
  | .opDload3 => writeByte 0x29
  | .opDload i => writeByte 0x18 ++ writeByte i
  | .opDmul => writeByte 0x6b
  | .opDneg => writeByte 0x77
  | .opDrem => writeByte 0x73
  | .opDreturn => writeByte 0xaf
  | .opDstore0 => writeByte 0x47
  | .opDstore1 => writeByte 0x48
  | .opDstore2 => writeByte 0x49
  | .opDstore3 => writeByte 0x4a
  | .opDstore i => writeByte 0x39 ++ writeByte i
  | .opDsub => writeByte 0x67
  -- float
  | .opF2d => writeByte 0x8d
  | .opF2i => writeByte 0x8b
  | .opF2l => writeByte 0x8c
  | .opFadd => writeByte 0x62
  | .opFaload => writeByte 0x30
  | .opFastore => writeByte 0x51
  | .opFcmpg => writeByte 0x96
  | .opFcmpl => writeByte 0x95
  | .opFdiv => writeByte 0x6e
  | .opFconst0 => writeByte 0xb
  | .opFconst1 => writeByte 0xc
  | .opFconst2 => writeByte 0xd
  | .opFload0 => writeByte 0x22
  | .opFload1 => writeByte 0x23
  | .opFload2 => writeByte 0x24
  | .opFload3 => writeByte 0x25
  | .opFload i => writeByte 0x17 ++ writeByte i
  | .opFmul => writeByte 0x6a
  | .opFneg => writeByte 0x76
  | .opFrem => writeByte 0x72
  | .opFreturn => writeByte 0xae
  | .opFstore0 => writeByte 0x43
  | .opFstore1 => writeByte 0x44
  | .opFstore2 => writeByte 0x45
  | .opFstore3 => writeByte 0x46
  | .opFstore i => writeByte 0x38 ++ writeByte i
  | .opFsub => writeByte 0x66
  -- int
  | .opI2b => writeByte 0x91
  | .opI2c => writeByte 0x92
  | .opI2d => writeByte 0x87
  | .opI2f => writeByte 0x86
  | .opI2l => writeByte 0x85
  | .opI2s => writeByte 0x93
  | .opIadd => writeByte 0x60
  | .opIaload => writeByte 0x2e
  | .opIand => writeByte 0x7e
  | .opIastore => writeByte 0x4f
  | .opIconstM1 => writeByte 0x2
  | .opIconst0 => writeByte 0x3
  | .opIconst1 => writeByte 0x4
  | .opIconst2 => writeByte 0x5
  | .opIconst3 => writeByte 0x6
  | .opIconst4 => writeByte 0x7
  | .opIconst5 => writeByte 0x8
  | .opIdiv => writeByte 0x6c
  | .opIload0 => writeByte 0x1a
  | .opIload1 => writeByte 0x1b
  | .opIload2 => writeByte 0x1c
  | .opIload3 => writeByte 0x1d
  | .opIload i => writeByte 0x15 ++ writeByte i
  | .opImul => writeByte 0x68
  | .opIneg => writeByte 0x74
  | .opIor => writeByte 0x80
  | .opIrem => writeByte 0x70
  | .opIreturn => writeByte 0xac
  | .opIshl => writeByte 0x78
  | .opIshr => writeByte 0x7a
  | .opIstore0 => writeByte 0x3b
  | .opIstore1 => writeByte 0x3c
  | .opIstore2 => writeByte 0x3d
  | .opIstore3 => writeByte 0x3e
  | .opIstore i => writeByte 0x36 ++ writeByte i
  | .opIsub => writeByte 0x64
  | .opIushr => writeByte 0x7c
  | .opIxor => writeByte 0x82
  -- long
  | .opL2d => writeByte 0x8a
  | .opL2f => writeByte 0x89
  | .opL2i => writeByte 0x88
  | .opLadd => writeByte 0x61
  | .opLaload => writeByte 0x2f
  | .opLand => writeByte 0x7f
  | .opLastore => writeByte 0x50
  | .opLconst0 => writeByte 0x9
  | .opLconst1 => writeByte 0xa
  | .opLcmp => writeByte 0x94
  | .opLdiv => writeByte 0x6d
  | .opLload0 => writeByte 0x1e
  | .opLload1 => writeByte 0x1f
  | .opLload2 => writeByte 0x20
  | .opLload3 => writeByte 0x21
  | .opLload i => writeByte 0x16 ++ writeByte i
  | .opLmul => writeByte 0x69
  | .opLneg => writeByte 0x75
  | .opLor => writeByte 0x81
  | .opLrem => writeByte 0x71
  | .opLreturn => writeByte 0xad
  | .opLshl => writeByte 0x79
  | .opLshr => writeByte 0x7b
  | .opLstore0 => writeByte 0x3f
  | .opLstore1 => writeByte 0x40
  | .opLstore2 => writeByte 0x41
  | .opLstore3 => writeByte 0x42
  | .opLstore i => writeByte 0x37 ++ writeByte i
  | .opLsub => writeByte 0x65
  | .opLushr => writeByte 0x7d
  | .opLxor => writeByte 0x83
  -- short
  | .opSaload => writeByte 0x35
  | .opSastore => writeByte 0x56
  | .opSipush i => writeByte 0x11 ++ bp i
  -- array
  | .opAaload => writeByte 0x32
  | .opAastore => writeByte 0x53
  | .opAnewarray offset => writeByte 0xbd ++ bp offset
  | .opArraylength => writeByte 0xbe
  | .opBaload => writeByte 0x33
  | .opBastore => writeByte 0x54
  | .opBipush i => writeByte 0x10 ++ writeByte i
  | .opCaload => writeByte 0x34
  | .opCastore => writeByte 0x55
  | .opMultianewarray offset d => writeByte 0xc5 ++ bp offset ++ writeByte d
  | .opNewarray t => writeByte 0xbc ++ writeByte t
  -- reference
  | .opAload0 => writeByte 0x2a
  | .opAload1 => writeByte 0x2b
  | .opAload2 => writeByte 0x2c
  | .opAload3 => writeByte 0x2d
  | .opAload i => writeByte 0x19 ++ writeByte i
  | .opAreturn => writeByte 0xb0
  | .opAstore0 => writeByte 0x4b
  | .opAstore1 => writeByte 0x4c
  | .opAstore2 => writeByte 0x4d
  | .opAstore3 => writeByte 0x4e
  | .opAstore i => writeByte 0x3a ++ writeByte i
  -- object
  | .opNew offset => writeByte 0xbb ++ bp offset
  | .opInstanceof offset => writeByte 0xc1 ++ bp offset
  | .opCheckcast offset => writeByte 0xc0 ++ bp offset
  | .opInvokedynamic offset => writeByte 0xba ++ bp offset ++ writeByte 0 ++ writeByte 0
  | .opInvokeinterface offset c => writeByte 0xb9 ++ bp offset ++ writeByte c ++ writeByte 0
  | .opInvokespecial offset => writeByte 0xb7 ++ bp offset
  | .opInvokestatic offset => writeByte 0xb8 ++ bp offset
  | .opInvokevirtual offset => writeByte 0xb6 ++ bp offset
  | .opGetfield offset => writeByte 0xb4 ++ bp offset
  | .opGetstatic offset => writeByte 0xb2 ++ bp offset
  | .opPutfield offset => writeByte 0xb5 ++ bp offset
  | .opPutstatic offset => writeByte 0xb3 ++ bp offset
  -- branching
  | .opIfAcmpeq i => writeByte 0xa5 ++ bp (refs i)
  | .opIfAcmpne i => writeByte 0xa6 ++ bp (refs i)
  | .opIfIcmp cmp i => writeByte (ifIcmpCode cmp) ++ bp (refs i)
  | .opIf cmp i => writeByte (ifCode cmp) ++ bp (refs i)
  | .opIfnonnull i => writeByte 0xc7 ++ bp (refs i)
  | .opIfnull i => writeByte 0xc6 ++ bp (refs i)
  | .opGoto i => writeByte 0xa7 ++ bp (refs i)
  | .opGotoW i => writeByte 0xc8 ++ b4 (refs i)
  | .opJsr i => writeByte 0xa8 ++ bp (refs i)
  | .opJsrW i => writeByte 0xc9 ++ b4 (refs i)
  -- stack
  | .opAconstNull => writeByte 0x1
  | .opDup => writeByte 0x59
  | .opDupX1 => writeByte 0x5a
  | .opDupX2 => writeByte 0x5b
  | .opDup2 => writeByte 0x5c
  | .opDup2X1 => writeByte 0x5d
  | .opDup2X2 => writeByte 0x5e
  | .opLdc i => writeByte 0x12 ++ writeByte i
  | .opLdcW i => writeByte 0x13 ++ bp i
  | .opLdc2W i => writeByte 0x14 ++ bp i
  | .opNop => writeByte 0x0
  | .opPop => writeByte 0x57
  | .opPop2 => writeByte 0x58
  | .opSwap => writeByte 0x5f
  -- other
  | .opAthrow => writeByte 0xbf
  | .opIinc i c => writeByte 0x84 ++ writeByte i ++ writeByte c
  | .opLookupswitch pad byDefault pairs =>
    writeByte 0xab ++ List.replicate pad 0 ++ b4 (refs byDefault) ++ b4 pairs.length ++
      pairs.flatMap fun pair => b4r pair.1 ++ b4 (refs pair.2)
  | .opTableswitch pad byDefault low high offsets =>
    writeByte 0xaa ++ List.replicate pad 0 ++ b4 (refs byDefault) ++ b4r low ++ b4r high ++
      offsets.flatMap fun offset => b4 (refs offset)
  | .opMonitorenter => writeByte 0xc2
  | .opMonitorexit => writeByte 0xc3
  | .opRet i => writeByte 0xa9 ++ writeByte i
  | .opReturn => writeByte 0xb1
  | .opWide op => writeByte 0xc4 ++ writeWide op

end Haxe.Source.Jvm
