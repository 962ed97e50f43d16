import Haxe.Source.Generators.HlBlocks

/-!
# Copy propagation

`propagate` and `get_state` of `hlopt.ml`. The states of the registers are arrays that blocks
share, so they live at addresses; the entries of an array refer to each other by their index.
What is noted on the way, for the liveness and the counts, is kept beside them. The visits record
the state around each instruction, where the source has its debug print.
-/

namespace Haxe.Source.Hl

/-- `reg_state`. -/
structure RegState where
  ralias : Reg
  rbind : List Reg
  rnullcheck : Bool
  deriving DecidableEq

abbrev RegStates := Reg → RegState

def emptyState : RegStates := fun r => ⟨r, [], false⟩

namespace RegStates

def set (st : RegStates) (r : Reg) (s : RegState) : RegStates :=
  fun r' => if r' = r then s else st r'

def unalias (st : RegStates) (r : Reg) : RegStates :=
  let root := (st r).ralias
  let st := st.set root { st root with rbind := (st root).rbind.filter fun r2 => r2 ≠ r }
  st.set r { st r with ralias := r }

/-- The part of `do_write` that is about the aliases. -/
def write (st : RegStates) (r : Reg) : RegStates :=
  let st := (st r).rbind.foldl (fun st r2 => st.set r2 { st r2 with ralias := r2 }) st
  let st := st.set r { st r with rbind := [], rnullcheck := false }
  st.unalias r

/-- What a move does after its write. -/
def bind (st : RegStates) (d v : Reg) : RegStates :=
  let st := st.set d { st d with ralias := v, rnullcheck := (st v).rnullcheck }
  if (st v).rbind.any fun r => r = d then st
  else st.set v { st v with rbind := d :: (st v).rbind }

def setNullcheck (st : RegStates) (r : Reg) (value : Bool) : RegStates :=
  st.set r { st r with rnullcheck := value }

/-- The first state after the join with another one. -/
def merge (st st2 : RegStates) : RegStates :=
  let st : RegStates := fun r =>
    if (st r).ralias ≠ (st2 r).ralias then { st r with ralias := r } else st r
  fun r =>
    let rbind := (st r).rbind.filter fun x => (st x).ralias = r
    { ralias := (st r).ralias
      rbind := (st2 r).rbind.foldl
        (fun acc x =>
          if (st x).ralias = r ∧ (!rbind.any fun y => y = x) = true then x :: acc else acc)
        rbind
      rnullcheck := (st r).rnullcheck && (st2 r).rnullcheck }

/-- Before the operands are replaced. -/
def release (regs : List Ttype) (st : RegStates) : Opcode → RegStates
  | .oIncr r | .oDecr r | .oRef _ r => st.unalias r
  | .oCallClosure _ r _ =>
    match regs[r]?, regs[(st r).ralias]? with
    | some .hDyn, some (.hFun _ rt) => if isDynamic rt then st else st.unalias r
    | some .hDyn, some .hDyn => st
    | some .hDyn, _ => st.unalias r
    | _, _ => st
  | _ => st

def replace (st : RegStates) (op : Opcode) : Opcode := opcodeMap (fun r => (st r).ralias) id op

end RegStates

/-- What is noted for the liveness of the registers and their renaming. -/
structure Marks where
  lastWrite : Reg → Option Nat
  live : Reg → Nat → Bool
  bneed : Nat → List Reg
  bwrite : Nat → Reg → Option Nat
  readCounts : Reg → Nat
  writeCounts : Reg → Nat
  regMoved : List (Nat × Reg × Option Nat)
  nopCount : Nat

def Marks.empty : Marks :=
  ⟨fun _ => none, fun _ _ => false, fun _ => [], fun _ _ => none, fun _ => 0, fun _ => 0, [], 0⟩

namespace Marks

def setLive (m : Marks) (r lo hi : Nat) : Marks :=
  { m with live := fun r' i => m.live r' i || (r' = r && lo ≤ i && i ≤ hi) }

def doRead (m : Marks) (b : Block) (i : Nat) (r : Reg) : Marks :=
  let known := (m.lastWrite r).any fun w => b.bstart ≤ w && w ≤ i
  let m := match m.lastWrite r, known with
    | some w, true => m.setLive r (w + 1) i
    | _, _ =>
      { m.setLive r b.bstart i with
        lastWrite := fun r' => if r' = r then some i else m.lastWrite r'
        bneed := fun pos => if pos = b.bstart then r :: m.bneed pos else m.bneed pos }
  { m with readCounts := fun r' => if r' = r then m.readCounts r' + 1 else m.readCounts r' }

def doWrite (m : Marks) (b : Block) (i : Nat) (r : Reg) : Marks :=
  { m with
    lastWrite := fun r' => if r' = r then some i else m.lastWrite r'
    bwrite := fun pos r' => if pos = b.bstart ∧ r' = r then some i else m.bwrite pos r'
    writeCounts := fun r' => if r' = r then m.writeCounts r' + 1 else m.writeCounts r' }

def addRegMoved (m : Marks) (p : Nat) (r : Reg) : Marks :=
  { m with regMoved := (p, r, m.lastWrite r) :: m.regMoved }

end Marks

/-- What the loop over a block works on. -/
structure Pass where
  code : List Opcode
  state : RegStates
  marks : Marks

namespace Pass

def doRead (s : Pass) (b : Block) (i : Nat) (r : Reg) : Pass :=
  { s with marks := s.marks.doRead b i r }

def doWrite (s : Pass) (b : Block) (i : Nat) (r : Reg) : Pass :=
  { s with state := s.state.write r, marks := s.marks.doWrite b i r }

def doAccess (s : Pass) (b : Block) (i : Nat) (a : Access) : Pass :=
  if a.reads then s.doRead b i a.reg else s.doWrite b i a.reg

def setNop (s : Pass) (i : Nat) (why : String) : Pass :=
  { s with
    code := s.code.set i (.oNop why)
    marks := { s.marks with nopCount := s.marks.nopCount + 1 } }

/-- The operands of an instruction that moves or converts a register to itself. -/
def selfMove : Opcode → Option Reg
  | .oMov d v | .oToInt d v | .oToSFloat d v => if d = v then some v else none
  | _ => none

/-- An instruction whose operands have been replaced. -/
def handle (s : Pass) (b : Block) (i : Nat) (op : Opcode) : Pass :=
  match selfMove op with
  | some v => { s with marks := s.marks.addRegMoved i v }.setNop i "mov"
  | none =>
    match op with
    | .oMov d v =>
      let s := (s.doRead b i v).doWrite b i d
      { s with state := s.state.bind d v }
    | .oIncr r | .oDecr r => (s.doRead b i r).doWrite b i r
    | .oNullCheck r =>
      if (s.state r).rnullcheck then s.setNop i "nullcheck"
      else
        let s := s.doRead b i r
        { s with state := s.state.setNullcheck r true }
    | .oNew r =>
      let s := s.doWrite b i r
      { s with state := s.state.setNullcheck r true }
    | .oToVirtual v o =>
      let s := (s.doRead b i o).doWrite b i v
      { s with state := s.state.setNullcheck v (s.state o).rnullcheck }
    | op => (opcodeFx op).foldl (fun s a => s.doAccess b i a) s

/-- One turn of the loop. The registers of an instruction are entries of the array. -/
def visit (regs : List Ttype) (b : Block) (s : Pass) (i : Nat) : Option Pass :=
  (s.code[i]?).bind fun op =>
    if (opcodeFx op).all fun a => a.reg < regs.length then
      let state := s.state.release regs op
      let op := state.replace op
      some ({ s with state := state, code := s.code.set i op }.handle b i op)
    else none

end Pass

/-- The states before and after an instruction, in the loop over a block. -/
structure Visit where
  block : Nat
  index : Nat
  before : RegStates
  after : RegStates

structure Analysis where
  code : List Opcode
  arrays : Nat → RegStates
  next : Nat
  bstate : Nat → Option Nat
  marks : Marks
  visits : List Visit

namespace Analysis

def alloc (s : Analysis) (st : RegStates) : Analysis × Nat :=
  ({ s with arrays := fun a => if a = s.next then st else s.arrays a, next := s.next + 1 }, s.next)

def setArray (s : Analysis) (a : Nat) (st : RegStates) : Analysis :=
  { s with arrays := fun a' => if a' = a then st else s.arrays a' }

def setState (s : Analysis) (pos a : Nat) : Analysis :=
  { s with bstate := fun p => if p = pos then some a else s.bstate p }

/-- A turn of the loop over a block, on the array at an address. -/
def visit (regs : List Ttype) (b : Block) (a : Nat) (s : Analysis) (i : Nat) : Option Analysis :=
  (Pass.visit regs b ⟨s.code, s.arrays a, s.marks⟩ i).map fun pass =>
    { s.setArray a pass.state with
      code := pass.code
      marks := pass.marks
      visits := ⟨b.bstart, i, s.arrays a, pass.state⟩ :: s.visits }

/-- `loop b.bstart`. -/
def loop (regs : List Ttype) (b : Block) (a : Nat) (s : Analysis) : Option Analysis :=
  (List.range' b.bstart (b.bend + 1 - b.bstart)).foldlM (visit regs b a) s

/-- The array of a block that goes on to others: reused by an only successor, else copied. -/
def share (s : Analysis) (a : Nat) : List Nat → Option (Analysis × Nat)
  | [] => none
  | [_] => some (s, a)
  | _ => some (s.alloc (s.arrays a))

/-- The array a block begins with, given how the state of another is got. -/
def enter (blocks : Nat → Option Block) (getState : Analysis → Nat → Option (Analysis × Nat))
    (s : Analysis) (b : Block) : Option (Analysis × Nat) :=
  if b.bloop then some (s.alloc emptyState)
  else
    match b.bprev with
    | [] => some (s.alloc emptyState)
    | b2 :: l =>
      (getState s b2).bind fun got =>
        (blocks b2).bind fun block2 =>
          (share got.1 got.2 block2.bnext).bind fun shared =>
            (l.foldlM (fun s p => (getState s p).map fun got =>
              got.1.setArray shared.2 ((got.1.arrays shared.2).merge (got.1.arrays got.2)))
                shared.1).map fun s => (s, shared.2)

mutual

def propagate (regs : List Ttype) (blocks : Nat → Option Block) :
    Nat → Analysis → Block → Option Analysis
  | 0, _, _ => none
  | n + 1, s, b =>
    (enter blocks (fun s p => getState regs blocks n s p) s b).bind fun entered =>
      (loop regs b entered.2 entered.1).bind fun s =>
        b.bnext.foldlM (fun s p => (getState regs blocks n s p).map Prod.fst)
          (s.setState b.bstart entered.2)

/-- `get_state`, with the address of the state. -/
def getState (regs : List Ttype) (blocks : Nat → Option Block) :
    Nat → Analysis → Nat → Option (Analysis × Nat)
  | 0, _, _ => none
  | n + 1, s, pos =>
    match s.bstate pos with
    | some a => some (s, a)
    | none =>
      (blocks pos).bind fun b =>
        ((b.bprev.filter fun p => p < pos).foldlM
          (fun s p => (getState regs blocks n s p).map Prod.fst) s).bind fun s =>
            match s.bstate pos with
            | some a => some (s, a)
            | none =>
              (propagate regs blocks n s b).bind fun s => (s.bstate pos).map fun a => (s, a)

end

end Analysis

/-- How deep the recursion can get. -/
def propagateFuel (code : List Opcode) : Nat := 2 * (code.length * (code.length + 1)) + 2

/-- `propagate root`. -/
def propagation (f : Fundecl) (g : BlockGraph) : Option Analysis :=
  (g.find f.code 0).bind fun root =>
    Analysis.propagate f.regs (g.find f.code) (propagateFuel f.code)
      ⟨f.code, fun _ => emptyState, 0, fun _ => none, .empty, []⟩ root

end Haxe.Source.Hl
