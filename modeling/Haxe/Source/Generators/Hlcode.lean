import Mathlib.Data.List.Basic

/-!
# HashLink code

The types, the opcodes and the functions of `hlcode.ml`, and what `hlopt.ml` reads off a single
opcode. The records that a type refers to are named by their identity.
-/

namespace Haxe.Source.Hl

abbrev Reg := Nat

inductive Ttype where
  | hVoid | hUI8 | hUI16 | hI32 | hI64 | hF32 | hF64 | hBool | hBytes | hDyn
  | hFun (args : List Ttype) (ret : Ttype)
  | hObj (proto : Nat)
  | hArray | hType
  | hRef (t : Ttype)
  | hVirtual (proto : Nat)
  | hDynObj
  | hAbstract (name : String) (index : Nat)
  | hEnum (proto : Nat)
  | hNull (t : Ttype)
  | hMethod (args : List Ttype) (ret : Ttype)
  | hStruct (proto : Nat)

/-- Whether a value carries its type. -/
def isDynamic : Ttype → Bool
  | .hDyn | .hFun _ _ | .hObj _ | .hArray | .hVirtual _ | .hDynObj | .hNull _ | .hEnum _ => true
  | _ => false

inductive Opcode where
  -- register storing
  | oMov (d a : Reg) | oInt (d : Reg) (idx : Nat) | oFloat (d : Reg) (idx : Nat)
  | oBool (d : Reg) (value : Bool) | oBytes (d : Reg) (idx : Nat) | oString (d : Reg) (idx : Nat)
  | oNull (d : Reg)
  -- binary operators
  | oAdd (d a b : Reg) | oSub (d a b : Reg) | oMul (d a b : Reg) | oSDiv (d a b : Reg)
  | oUDiv (d a b : Reg) | oSMod (d a b : Reg) | oUMod (d a b : Reg) | oShl (d a b : Reg)
  | oSShr (d a b : Reg) | oUShr (d a b : Reg) | oAnd (d a b : Reg) | oOr (d a b : Reg)
  | oXor (d a b : Reg)
  -- unary operators
  | oNeg (d a : Reg) | oNot (d a : Reg) | oIncr (a : Reg) | oDecr (a : Reg)
  -- calls
  | oCall0 (d : Reg) (f : Nat) | oCall1 (d : Reg) (f : Nat) (a : Reg)
  | oCall2 (d : Reg) (f : Nat) (a b : Reg) | oCall3 (d : Reg) (f : Nat) (a b c : Reg)
  | oCall4 (w : Reg) (f : Nat) (a b c d : Reg) | oCallN (d : Reg) (f : Nat) (rl : List Reg)
  | oCallMethod (d : Reg) (f : Nat) (rl : List Reg) | oCallThis (d : Reg) (f : Nat) (rl : List Reg)
  | oCallClosure (d f : Reg) (rl : List Reg)
  -- closures
  | oStaticClosure (d : Reg) (f : Nat) | oInstanceClosure (d : Reg) (f : Nat) (a : Reg)
  | oVirtualClosure (d a : Reg) (f : Nat)
  -- field access
  | oGetGlobal (d : Reg) (g : Nat) | oSetGlobal (g : Nat) (r : Reg)
  | oField (d a : Reg) (f : Nat) | oSetField (a : Reg) (f : Nat) (b : Reg)
  | oGetThis (d : Reg) (f : Nat) | oSetThis (f : Nat) (a : Reg)
  | oDynGet (d a : Reg) (f : Nat) | oDynSet (a : Reg) (f : Nat) (b : Reg)
  -- jumps
  | oJTrue (r : Reg) (d : Int) | oJFalse (r : Reg) (d : Int) | oJNull (r : Reg) (d : Int)
  | oJNotNull (r : Reg) (d : Int) | oJSLt (a b : Reg) (d : Int) | oJSGte (a b : Reg) (d : Int)
  | oJSGt (a b : Reg) (d : Int) | oJSLte (a b : Reg) (d : Int) | oJULt (a b : Reg) (d : Int)
  | oJUGte (a b : Reg) (d : Int) | oJNotLt (a b : Reg) (d : Int) | oJNotGte (a b : Reg) (d : Int)
  | oJEq (a b : Reg) (d : Int) | oJNotEq (a b : Reg) (d : Int) | oJAlways (d : Int)
  -- coercions
  | oToDyn (d a : Reg) | oToSFloat (d a : Reg) | oToUFloat (d a : Reg) | oToInt (d a : Reg)
  | oSafeCast (d a : Reg) | oUnsafeCast (d a : Reg) | oToVirtual (d a : Reg)
  -- control flow
  | oLabel (unused : Int) | oRet (r : Reg) | oThrow (r : Reg) | oRethrow (r : Reg)
  | oSwitch (r : Reg) (cases : List Int) (send : Int) | oNullCheck (r : Reg)
  | oTrap (r : Reg) (d : Int) | oEndTrap (last : Bool)
  -- memory access
  | oGetUI8 (d a b : Reg) | oGetUI16 (d a b : Reg) | oGetMem (d a b : Reg) | oGetArray (d a b : Reg)
  | oSetUI8 (a b c : Reg) | oSetUI16 (a b c : Reg) | oSetMem (a b c : Reg) | oSetArray (a b c : Reg)
  -- type operations
  | oNew (d : Reg) | oArraySize (d a : Reg) | oType (d : Reg) (t : Ttype) | oGetType (d a : Reg)
  | oGetTID (d a : Reg)
  -- references
  | oRef (d a : Reg) | oUnref (d a : Reg) | oSetref (d a : Reg)
  -- enums
  | oMakeEnum (d : Reg) (e : Nat) (rl : List Reg) | oEnumAlloc (d : Reg) (e : Nat)
  | oEnumIndex (d a : Reg) | oEnumField (d a : Reg) (cs idx : Nat)
  | oSetEnumField (a : Reg) (f : Nat) (b : Reg)
  -- misc
  | oAssert (unused : Int) | oRefData (r d : Reg) | oRefOffset (r r2 off : Reg)
  | oNop (why : String)

structure Fundecl where
  fpath : String × String
  findex : Nat
  ftype : Ttype
  regs : List Ttype
  code : List Opcode
  debug : List (Int × Int)
  assigns : List (Nat × Int)

/-- How an opcode passes the control on. -/
inductive Control where
  | cNo
  | cJCond (d : Int)
  | cJAlways (d : Int)
  | cTry (d : Int)
  | cSwitch (cases : List Int)
  | cRet | cThrow | cLabel

def control : Opcode → Control
  | .oJTrue _ d | .oJFalse _ d | .oJNull _ d | .oJNotNull _ d
  | .oJSLt _ _ d | .oJSGte _ _ d | .oJSGt _ _ d | .oJSLte _ _ d | .oJULt _ _ d | .oJUGte _ _ d
  | .oJEq _ _ d | .oJNotEq _ _ d | .oJNotLt _ _ d | .oJNotGte _ _ d => .cJCond d
  | .oJAlways d => .cJAlways d
  | .oLabel _ => .cLabel
  | .oRet _ => .cRet
  | .oThrow _ | .oRethrow _ => .cThrow
  | .oSwitch _ cases _ => .cSwitch cases
  | .oTrap _ d => .cTry d
  | _ => .cNo

/-- An access to a register: a read or a write. -/
structure Access where
  reg : Reg
  reads : Bool
  deriving DecidableEq, Repr

def read (r : Reg) : Access := ⟨r, true⟩

def write (r : Reg) : Access := ⟨r, false⟩

/-- The accesses of an opcode, in the order in which they are reported. -/
@[grind =] def opcodeFx : Opcode → List Access
  | .oMov d a | .oNeg d a | .oNot d a => [read a, write d]
  | .oInt d _ | .oFloat d _ | .oBool d _ | .oBytes d _ | .oString d _ | .oNull d => [write d]
  | .oAdd d a b | .oSub d a b | .oMul d a b | .oSDiv d a b | .oUDiv d a b | .oSMod d a b
  | .oUMod d a b | .oShl d a b | .oSShr d a b | .oUShr d a b | .oAnd d a b | .oOr d a b
  | .oXor d a b => [read a, read b, write d]
  | .oIncr a | .oDecr a => [read a, write a]
  | .oCall0 d _ => [write d]
  | .oCall1 d _ a => [read a, write d]
  | .oCall2 d _ a b => [read a, read b, write d]
  | .oCall3 d _ a b c => [read a, read b, read c, write d]
  | .oCall4 d _ a b c k => [read a, read b, read c, read k, write d]
  | .oCallN d _ rl | .oCallMethod d _ rl | .oCallThis d _ rl => rl.map read ++ [write d]
  | .oCallClosure d f rl => read f :: rl.map read ++ [write d]
  | .oStaticClosure d _ => [write d]
  | .oInstanceClosure d _ a | .oVirtualClosure d a _ => [read a, write d]
  | .oGetGlobal d _ => [write d]
  | .oSetGlobal _ a => [read a]
  | .oField d a _ | .oDynGet d a _ => [read a, write d]
  | .oSetField a _ b | .oDynSet a _ b => [read a, read b]
  | .oGetThis d _ => [write d]
  | .oSetThis _ a => [read a]
  | .oJTrue r _ | .oJFalse r _ | .oJNull r _ | .oJNotNull r _ => [read r]
  | .oJSLt a b _ | .oJSGte a b _ | .oJSGt a b _ | .oJSLte a b _ | .oJULt a b _ | .oJUGte a b _
  | .oJNotLt a b _ | .oJNotGte a b _ | .oJEq a b _ | .oJNotEq a b _ => [read a, read b]
  | .oJAlways _ | .oLabel _ => []
  | .oToDyn d a | .oToSFloat d a | .oToUFloat d a | .oToInt d a | .oSafeCast d a
  | .oUnsafeCast d a | .oToVirtual d a => [read a, write d]
  | .oRet r | .oThrow r | .oRethrow r | .oSwitch r _ _ | .oNullCheck r => [read r]
  | .oTrap r _ => [write r]
  | .oEndTrap _ => []
  | .oGetUI8 d a b | .oGetUI16 d a b | .oGetMem d a b | .oGetArray d a b =>
    [read a, read b, write d]
  | .oSetUI8 a b c | .oSetUI16 a b c | .oSetMem a b c | .oSetArray a b c =>
    [read a, read b, read c]
  | .oNew d => [write d]
  | .oArraySize d a | .oGetType d a | .oGetTID d a | .oUnref d a | .oSetref d a
  | .oEnumIndex d a | .oEnumField d a _ _ => [read a, write d]
  | .oRef d a => [read a, write a, write d]
  | .oType d _ | .oEnumAlloc d _ => [write d]
  | .oMakeEnum d _ rl => rl.map read ++ [write d]
  | .oSetEnumField a _ b => [read a, read b]
  | .oAssert _ => []
  | .oRefData r d => [read d, write r]
  | .oRefOffset r r2 off => [read r2, read off, write r]
  | .oNop _ => []

@[grind =] def opcodeMap (read write : Reg → Reg) : Opcode → Opcode
  | .oMov d a => .oMov (write d) (read a)
  | .oNeg d a => .oNeg (write d) (read a)
  | .oNot d a => .oNot (write d) (read a)
  | .oInt d idx => .oInt (write d) idx
  | .oFloat d idx => .oFloat (write d) idx
  | .oBool d idx => .oBool (write d) idx
  | .oBytes d idx => .oBytes (write d) idx
  | .oString d idx => .oString (write d) idx
  | .oNull d => .oNull (write d)
  | .oAdd d a b => .oAdd (write d) (read a) (read b)
  | .oSub d a b => .oSub (write d) (read a) (read b)
  | .oMul d a b => .oMul (write d) (read a) (read b)
  | .oSDiv d a b => .oSDiv (write d) (read a) (read b)
  | .oUDiv d a b => .oUDiv (write d) (read a) (read b)
  | .oSMod d a b => .oSMod (write d) (read a) (read b)
  | .oUMod d a b => .oUMod (write d) (read a) (read b)
  | .oShl d a b => .oShl (write d) (read a) (read b)
  | .oSShr d a b => .oSShr (write d) (read a) (read b)
  | .oUShr d a b => .oUShr (write d) (read a) (read b)
  | .oAnd d a b => .oAnd (write d) (read a) (read b)
  | .oOr d a b => .oOr (write d) (read a) (read b)
  | .oXor d a b => .oXor (write d) (read a) (read b)
  | .oIncr a => .oIncr (write a)
  | .oDecr a => .oDecr (write a)
  | .oCall0 d f => .oCall0 (write d) f
  | .oCall1 d f a => .oCall1 (write d) f (read a)
  | .oCall2 d f a b => .oCall2 (write d) f (read a) (read b)
  | .oCall3 d f a b c => .oCall3 (write d) f (read a) (read b) (read c)
  | .oCall4 w f a b c d => .oCall4 (write w) f (read a) (read b) (read c) (read d)
  | .oCallN d f rl => .oCallN (write d) f (rl.map read)
  | .oCallMethod d f rl => .oCallMethod (write d) f (rl.map read)
  | .oCallThis d f rl => .oCallThis (write d) f (rl.map read)
  | .oCallClosure d f rl => .oCallClosure (write d) (read f) (rl.map read)
  | .oStaticClosure d f => .oStaticClosure (write d) f
  | .oInstanceClosure d f a => .oInstanceClosure (write d) f (read a)
  | .oVirtualClosure d a f => .oVirtualClosure (write d) (read a) f
  | .oGetGlobal d g => .oGetGlobal (write d) g
  | .oSetGlobal g r => .oSetGlobal g (read r)
  | .oField d a f => .oField (write d) (read a) f
  | .oDynGet d a f => .oDynGet (write d) (read a) f
  | .oSetField a f b => .oSetField (read a) f (read b)
  | .oDynSet a f b => .oDynSet (read a) f (read b)
  | .oGetThis d f => .oGetThis (write d) f
  | .oSetThis f a => .oSetThis f (read a)
  | .oJTrue r d => .oJTrue (read r) d
  | .oJFalse r d => .oJFalse (read r) d
  | .oJNull r d => .oJNull (read r) d
  | .oJNotNull r d => .oJNotNull (read r) d
  | .oJSLt a b d => .oJSLt (read a) (read b) d
  | .oJSGte a b d => .oJSGte (read a) (read b) d
  | .oJSGt a b d => .oJSGt (read a) (read b) d
  | .oJSLte a b d => .oJSLte (read a) (read b) d
  | .oJULt a b d => .oJULt (read a) (read b) d
  | .oJUGte a b d => .oJUGte (read a) (read b) d
  | .oJNotLt a b d => .oJNotLt (read a) (read b) d
  | .oJNotGte a b d => .oJNotGte (read a) (read b) d
  | .oJEq a b d => .oJEq (read a) (read b) d
  | .oJNotEq a b d => .oJNotEq (read a) (read b) d
  | .oJAlways d => .oJAlways d
  | .oLabel unused => .oLabel unused
  | .oToDyn d a => .oToDyn (write d) (read a)
  | .oToSFloat d a => .oToSFloat (write d) (read a)
  | .oToUFloat d a => .oToUFloat (write d) (read a)
  | .oToInt d a => .oToInt (write d) (read a)
  | .oSafeCast d a => .oSafeCast (write d) (read a)
  | .oUnsafeCast d a => .oUnsafeCast (write d) (read a)
  | .oToVirtual d a => .oToVirtual (write d) (read a)
  | .oRet r => .oRet (read r)
  | .oThrow r => .oThrow (read r)
  | .oRethrow r => .oRethrow (read r)
  | .oSwitch r cases send => .oSwitch (read r) cases send
  | .oNullCheck r => .oNullCheck (read r)
  | .oTrap r d => .oTrap (write r) d
  | .oEndTrap last => .oEndTrap last
  | .oGetUI8 d a b => .oGetUI8 (write d) (read a) (read b)
  | .oGetUI16 d a b => .oGetUI16 (write d) (read a) (read b)
  | .oGetMem d a b => .oGetMem (write d) (read a) (read b)
  | .oGetArray d a b => .oGetArray (write d) (read a) (read b)
  | .oSetUI8 a b c => .oSetUI8 (read a) (read b) (read c)
  | .oSetUI16 a b c => .oSetUI16 (read a) (read b) (read c)
  | .oSetMem a b c => .oSetMem (read a) (read b) (read c)
  | .oSetArray a b c => .oSetArray (read a) (read b) (read c)
  | .oNew d => .oNew (write d)
  | .oArraySize d a => .oArraySize (write d) (read a)
  | .oGetType d a => .oGetType (write d) (read a)
  | .oGetTID d a => .oGetTID (write d) (read a)
  | .oRef d a => .oRef (write d) (read a)
  | .oUnref d a => .oUnref (write d) (read a)
  | .oSetref d a => .oSetref (write d) (read a)
  | .oEnumIndex d a => .oEnumIndex (write d) (read a)
  | .oEnumField d a cs idx => .oEnumField (write d) (read a) cs idx
  | .oType d t => .oType (write d) t
  | .oEnumAlloc d e => .oEnumAlloc (write d) e
  | .oMakeEnum d e rl => .oMakeEnum (write d) e (rl.map read)
  | .oSetEnumField a f b => .oSetEnumField (read a) f (read b)
  | .oAssert unused => .oAssert unused
  | .oRefData r d => .oRefData (write r) (read d)
  | .oRefOffset r r2 off => .oRefOffset (write r) (read r2) (read off)
  | .oNop why => .oNop why

/-- Mapping both kinds of operands alike maps every access. -/
theorem opcodeFx_opcodeMap (f : Reg → Reg) (op : Opcode) :
    opcodeFx (opcodeMap f f op) = (opcodeFx op).map fun access => ⟨f access.reg, access.reads⟩ := by
  cases op <;> simp [opcodeFx, opcodeMap, read, write]

theorem opcodeMap_opcodeMap (f g : Reg → Reg) (op : Opcode) :
    opcodeMap g g (opcodeMap f f op) = opcodeMap (fun r => g (f r)) (fun r => g (f r)) op := by
  cases op <;> simp [opcodeMap]

theorem control_opcodeMap (f g : Reg → Reg) (op : Opcode) :
    control (opcodeMap f g op) = control op := by
  cases op <;> rfl

end Haxe.Source.Hl
