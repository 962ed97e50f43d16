import Haxe.Source.Generators.HlRemap

/-!
# Running HashLink code

A machine says what an opcode does, given the types and the cells of its registers: it changes
the world, in which the cells are, and says where the control goes. It does not see the numbers
of the registers, nor the offsets. The traps are the positions of the handlers.
-/

namespace Haxe.Source.Hl

open Theory.Compaction

/-- The offsets of an opcode, among them the end of a switch. -/
def offsets : Opcode → List Int
  | .oSwitch _ cases send => cases ++ [send]
  | op =>
    match control op with
    | .cJCond d | .cJAlways d | .cTry d => [d]
    | _ => []

@[grind =] def offsetMap (g : Int → Int) : Opcode → Opcode
  | .oJTrue r d => .oJTrue r (g d)
  | .oJFalse r d => .oJFalse r (g d)
  | .oJNull r d => .oJNull r (g d)
  | .oJNotNull r d => .oJNotNull r (g d)
  | .oJSLt a b d => .oJSLt a b (g d)
  | .oJSGte a b d => .oJSGte a b (g d)
  | .oJSGt a b d => .oJSGt a b (g d)
  | .oJSLte a b d => .oJSLte a b (g d)
  | .oJULt a b d => .oJULt a b (g d)
  | .oJUGte a b d => .oJUGte a b (g d)
  | .oJNotLt a b d => .oJNotLt a b (g d)
  | .oJNotGte a b d => .oJNotGte a b (g d)
  | .oJEq a b d => .oJEq a b (g d)
  | .oJNotEq a b d => .oJNotEq a b (g d)
  | .oJAlways d => .oJAlways (g d)
  | .oSwitch r cases send => .oSwitch r (cases.map g) (g send)
  | .oTrap r d => .oTrap r (g d)
  | op => op

/-- An opcode that uses the first register without naming it. -/
def usesThis : Opcode → Bool
  | .oGetThis _ _ | .oSetThis _ _ | .oCallThis _ _ _ => true
  | _ => false

def operands (op : Opcode) : List Reg :=
  (if usesThis op then [0] else []) ++ (opcodeFx op).map Access.reg

/-- An opcode without the numbers of its registers and its offsets. -/
def skeleton (op : Opcode) : Opcode :=
  offsetMap (fun _ => 0) (opcodeMap (fun _ => 0) (fun _ => 0) op)

/-- Where an instruction passes the control. -/
inductive Outcome where
  | next | jump | switchCase (k : Nat) | ret | throw

structure Machine (Cell World : Type*) where
  exec : Opcode → List (Ttype × Cell) → World → World × Outcome

inductive Config (World : Type*) where
  | running (pc : Nat) (traps : List Nat) (world : World)
  | returned (world : World)
  | thrown (world : World)

variable {Cell World : Type*}

/-- Where an offset leads to from a position. -/
def land (pc : Nat) (d : Int) : Option Nat :=
  if 0 ≤ pc + 1 + d then some (pc + 1 + d).toNat else none

def isEndTrap : Opcode → Bool
  | .oEndTrap _ => true
  | _ => false

def follow (op : Opcode) (pc : Nat) (traps : List Nat) (world : World) :
    Outcome → Option (Config World)
  | .next =>
    match control op with
    | .cTry d => (land pc d).map fun handler => .running (pc + 1) (handler :: traps) world
    | _ => some (.running (pc + 1) (if isEndTrap op then traps.tail else traps) world)
  | .jump =>
    match control op with
    | .cJCond d | .cJAlways d => (land pc d).map fun target => .running target traps world
    | _ => none
  | .switchCase k =>
    match control op with
    | .cSwitch cases =>
      match cases[k]? with
      | some d => (land pc d).map fun target => .running target traps world
      | none => some (.running (pc + 1) traps world)
    | _ => none
  | .ret => some (.returned world)
  | .throw =>
    match traps with
    | handler :: rest => some (.running handler rest world)
    | [] => some (.thrown world)

def locate (regs : List Ttype) (cell : Reg → Cell) (rs : List Reg) : Option (List (Ttype × Cell)) :=
  rs.mapM fun r => regs[r]?.map fun t => (t, cell r)

/-- One step of a function. What is seen of it is the position of the instruction. -/
@[grind =] def step (m : Machine Cell World) (f : Fundecl) (cell : Reg → Cell) :
    Config World → Option (Option Nat × Config World)
  | .running pc traps world =>
    match f.code[pc]? with
    | none => none
    | some op =>
      if isNop op then some (none, .running (pc + 1) traps world)
      else
        (locate f.regs cell (operands op)).bind fun located =>
          let done := m.exec (skeleton op) located world
          (follow op pc traps done.1 done.2).map fun c => (some pc, c)
  | _ => none

/-- A configuration with its positions moved. -/
@[grind =] def Config.move (place : Nat → Nat) : Config World → Config World
  | .running pc traps world => .running (place pc) (traps.map place) world
  | .returned world => .returned world
  | .thrown world => .thrown world

/-- How many positions are left. -/
def Config.left (length : Nat) : Config World → Nat
  | .running pc _ _ => length - pc
  | _ => 0

section Opcodes

@[grind =] def Control.offsetMap (g : Int → Int) : Control → Control
  | .cJCond d => .cJCond (g d)
  | .cJAlways d => .cJAlways (g d)
  | .cTry d => .cTry (g d)
  | .cSwitch cases => .cSwitch (cases.map g)
  | c => c

theorem control_offsetMap (g : Int → Int) (op : Opcode) :
    control (offsetMap g op) = (control op).offsetMap g := by
  cases op <;> rfl

theorem opcodeFx_offsetMap (g : Int → Int) (op : Opcode) :
    opcodeFx (offsetMap g op) = opcodeFx op := by
  cases op <;> rfl

theorem isNop_offsetMap (g : Int → Int) (op : Opcode) : isNop (offsetMap g op) = isNop op := by
  cases op <;> rfl

theorem isEndTrap_offsetMap (g : Int → Int) (op : Opcode) :
    isEndTrap (offsetMap g op) = isEndTrap op := by
  cases op <;> rfl

theorem usesThis_offsetMap (g : Int → Int) (op : Opcode) :
    usesThis (offsetMap g op) = usesThis op := by
  cases op <;> rfl

theorem offsetMap_offsetMap (g h : Int → Int) (op : Opcode) :
    offsetMap h (offsetMap g op) = offsetMap (fun d => h (g d)) op := by
  cases op <;> simp [offsetMap]

theorem offsetMap_opcodeMap (g : Int → Int) (f : Reg → Reg) (op : Opcode) :
    opcodeMap f f (offsetMap g op) = offsetMap g (opcodeMap f f op) := by
  cases op <;> rfl

variable (f : Reg → Reg) (op : Opcode)

theorem isNop_opcodeMap : isNop (opcodeMap f f op) = isNop op := by
  cases op <;> rfl

theorem isJump_opcodeMap : isJump (opcodeMap f f op) = isJump op := by
  cases op <;> rfl

theorem isEndTrap_opcodeMap : isEndTrap (opcodeMap f f op) = isEndTrap op := by
  cases op <;> rfl

theorem usesThis_opcodeMap : usesThis (opcodeMap f f op) = usesThis op := by
  cases op <;> rfl

theorem offsets_opcodeMap : offsets (opcodeMap f f op) = offsets op := by
  cases op <;> rfl

theorem offsetMap_of_no_jump {op : Opcode} (plain : isJump op = false) (g : Int → Int) :
    offsetMap g op = op := by
  cases op <;> first | rfl | cases plain

/-- The skeleton does not depend on the numbers and the offsets. -/
theorem skeleton_moved (g : Int → Int) :
    skeleton (offsetMap g (opcodeMap f f op)) = skeleton op := by
  rw [skeleton, offsetMap_opcodeMap, offsetMap_offsetMap, opcodeMap_opcodeMap]
  rfl

theorem operands_moved (g : Int → Int) (this : usesThis op = true → f 0 = 0) :
    operands (offsetMap g (opcodeMap f f op)) = (operands op).map f := by
  rw [operands, opcodeFx_offsetMap, opcodeFx_opcodeMap, usesThis_offsetMap, usesThis_opcodeMap,
    operands]
  cases uses : usesThis op with
  | false => simp
  | true => simp [this uses]

end Opcodes

end Haxe.Source.Hl
