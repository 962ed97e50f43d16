import Haxe.Source.Generators.Hlcode
import Haxe.Theory.Compaction

/-!
# Renumbering an optimised function

The last step of `hlopt.ml`: the instructions that became `ONop` are taken out, the jumps lead to
where their targets went, and the registers get the numbers of a register map. An unchecked
access out of bounds, and a failed assertion, give no result. The assigns are those which the
first part of `remap_fun` has resolved; that part and the dump are not represented.
-/

namespace Haxe.Source.Hl

open Theory.Compaction

/-- What `remap_fun` reads of the optimiser's results. -/
structure Rctx where
  usedRegs : Nat
  nopCount : Nat
  regMap : List Int

def isNop : Opcode → Bool
  | .oNop _ => true
  | _ => false

/-- The opcodes whose offsets are computed again. -/
def isJump : Opcode → Bool
  | .oJTrue _ _ | .oJFalse _ _ | .oJNull _ _ | .oJNotNull _ _ | .oJSLt _ _ _ | .oJSGte _ _ _
  | .oJSGt _ _ _ | .oJSLte _ _ _ | .oJNotLt _ _ _ | .oJNotGte _ _ _ | .oJULt _ _ _
  | .oJUGte _ _ _ | .oJEq _ _ _ | .oJNotEq _ _ _ | .oJAlways _ | .oSwitch _ _ _ | .oTrap _ _ =>
    true
  | _ => false

/-- The number of a register. It means something for an entry of the map that is no gap. -/
def mapped (regMap : List Int) (r : Reg) : Reg := (regMap[r]?.getD (-1)).toNat

/-- A register of the code without a number has no meaning. -/
def numberRegs (regMap : List Int) (op : Opcode) : Option Opcode :=
  if (opcodeFx op).all fun access => 0 ≤ regMap[access.reg]?.getD (-1) then
    some (opcodeMap (mapped regMap) (mapped regMap) op)
  else none

/-- The arrays that the pass over the code fills from their fronts. The position written next is
the number of opcodes written. -/
structure Compacted where
  newPos : List Nat
  jumps : List Nat
  outCode : List Opcode
  newDebug : List (Int × Int)

def compact (rename : Opcode → Option Opcode) (debug : List (Int × Int)) (size : Nat) :
    Nat → List Opcode → Compacted → Option Compacted
  | _, [], s => some s
  | i, op :: ops, s =>
    let newPos := s.newPos ++ [s.outCode.length]
    if isNop op then compact rename debug size (i + 1) ops { s with newPos := newPos }
    else do
      let op' ← rename op
      let line ← debug[i]?
      if s.outCode.length < size then
        compact rename debug size (i + 1) ops
          ⟨newPos, if isJump op then i :: s.jumps else s.jumps, s.outCode ++ [op'],
            s.newDebug ++ [line]⟩
      else none

/-- A jump with its offsets replaced. -/
def retarget (pos : Int → Option Int) : Opcode → Option Opcode
  | .oJTrue r d => (pos d).map (.oJTrue r)
  | .oJFalse r d => (pos d).map (.oJFalse r)
  | .oJNull r d => (pos d).map (.oJNull r)
  | .oJNotNull r d => (pos d).map (.oJNotNull r)
  | .oJSLt a b d => (pos d).map (.oJSLt a b)
  | .oJSGte a b d => (pos d).map (.oJSGte a b)
  | .oJSLte a b d => (pos d).map (.oJSLte a b)
  | .oJSGt a b d => (pos d).map (.oJSGt a b)
  | .oJULt a b d => (pos d).map (.oJULt a b)
  | .oJUGte a b d => (pos d).map (.oJUGte a b)
  | .oJNotLt a b d => (pos d).map (.oJNotLt a b)
  | .oJNotGte a b d => (pos d).map (.oJNotGte a b)
  | .oJEq a b d => (pos d).map (.oJEq a b)
  | .oJNotEq a b d => (pos d).map (.oJNotEq a b)
  | .oJAlways d => (pos d).map .oJAlways
  | .oSwitch r cases send =>
    (cases.mapM pos).bind fun cases' => (pos send).map (.oSwitch r cases')
  | .oTrap r d => (pos d).map (.oTrap r)
  | _ => none

/-- The position that an instruction behind the code's start goes to. -/
def posAt (newPos : List Nat) (at_ : Int) : Option Nat :=
  if 0 ≤ at_ then newPos[at_.toNat]? else none

def pos (newPos : List Nat) (j : Nat) (d : Int) : Option Int := do
  let target ← posAt newPos (j + 1 + d)
  let next ← posAt newPos (j + 1)
  some (target - next)

def fixJump (newPos : List Nat) (outCode : List Opcode) (j : Nat) : Option (List Opcode) := do
  let p ← newPos[j]?
  let op ← outCode[p]?
  let op' ← retarget (pos newPos j) op
  some (outCode.set p op')

/-- The types of the registers under their new numbers. -/
def numberTypes (regMap : List Int) (regs : List Ttype) (used : Nat) : Option (List Ttype) :=
  (List.range regs.length).foldlM (fun newRegs i => do
    let p ← regMap[i]?
    if 0 ≤ p then
      let t ← regs[i]?
      if p.toNat < newRegs.length then some (newRegs.set p.toNat t) else none
    else some newRegs) (List.replicate used .hVoid)

def remapAssigns (newPos : List Nat) (assigns : List (Nat × Int)) : Option (List (Nat × Int)) :=
  assigns.mapM fun assign =>
    if 0 ≤ assign.2 then (posAt newPos assign.2).map fun p => (assign.1, (p : Int))
    else some assign

def regRemap (ctx : Rctx) (f : Fundecl) : Bool := ctx.usedRegs ≠ f.regs.length

def remapFun (ctx : Rctx) (f : Fundecl) (assigns : List (Nat × Int)) : Option Fundecl :=
  match f.ftype with
  | .hFun _ _ =>
    if 0 < ctx.nopCount ∨ regRemap ctx f then do
      let size := f.code.length - ctx.nopCount
      if f.code.length < ctx.nopCount then none
      let rename := if regRemap ctx f then numberRegs ctx.regMap else some
      let s ← compact rename f.debug size 0 f.code ⟨[], [], [], []⟩
      let blank := List.replicate (size - s.outCode.length) (.oNop "")
      let code ← s.jumps.foldlM (fixJump s.newPos) (s.outCode ++ blank)
      let debug := s.newDebug ++ List.replicate (size - s.newDebug.length) (0, 0)
      let assigns ← remapAssigns s.newPos assigns
      let regs ← if regRemap ctx f then numberTypes ctx.regMap f.regs ctx.usedRegs else some f.regs
      some { f with code := code, regs := regs, debug := debug, assigns := assigns }
    else some { f with assigns := assigns }
  | _ => none

/-- The number of arguments of a function. -/
def nargs (f : Fundecl) : Nat :=
  match f.ftype with
  | .hFun args _ => args.length
  | _ => 0

/-- The register map that `_optimize` builds: the registers that are accessed and the arguments
are numbered in their order. -/
def buildRegMap (accessed : Reg → Bool) (nargs : Nat) : Nat → List Int × Nat
  | 0 => ([], 0)
  | n + 1 =>
    let (regMap, used) := buildRegMap accessed nargs n
    if accessed n || n < nargs then (regMap ++ [(used : Int)], used + 1)
    else (regMap ++ [-1], used)

end Haxe.Source.Hl
