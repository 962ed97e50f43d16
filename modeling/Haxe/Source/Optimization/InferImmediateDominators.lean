import Mathlib.Logic.Function.Basic
import Haxe.Theory.Dominance

/-!
# Control flow graphs of the analyzer

Blocks are their `bb_id`. An edge record is shared by the outgoing list of its
source and the incoming list of its target, as `add_cfg_edge` leaves it;
`cfgId` stands for the identity of the record. Expressions are a parameter.
-/

namespace Haxe.Source.Optimization
open Haxe.Theory

inductive CfgEdgeKind (Texpr : Type) where
  | cfgGoto
  | cfgFunction
  | cfgMaybeThrow
  | cfgCondBranch (e : Texpr)
  | cfgCondElse
  deriving DecidableEq, Repr

structure CfgEdge (Texpr : Type) where
  cfgId : Nat
  cfgFrom : Nat
  cfgTo : Nat
  cfgKind : CfgEdgeKind Texpr
  deriving DecidableEq, Repr

structure Cfg (Texpr : Type) where
  gRoot : Nat
  gNodes : List Nat
  bbOutgoing : Nat → List (CfgEdge Texpr)
  bbIncoming : Nat → List (CfgEdge Texpr)
  root_mem : gRoot ∈ gNodes
  outgoing_from : ∀ bb, ∀ edge ∈ bbOutgoing bb, edge.cfgFrom = bb
  incoming_to : ∀ bb, ∀ edge ∈ bbIncoming bb, edge.cfgTo = bb
  mirrored : ∀ edge, edge ∈ bbOutgoing edge.cfgFrom ↔ edge ∈ bbIncoming edge.cfgTo
  target_mem : ∀ bb, ∀ edge ∈ bbOutgoing bb, edge.cfgTo ∈ gNodes

namespace Cfg

variable {Texpr : Type} (g : Cfg Texpr)

def succ (bb : Nat) : List Nat := (g.bbOutgoing bb).map CfgEdge.cfgTo

/-- Some edge leads from the first block to the second. -/
def Edge (bb bb' : Nat) : Prop := bb' ∈ g.succ bb

theorem edge_iff_incoming {bb bb' : Nat} :
    g.Edge bb bb' ↔ ∃ edge ∈ g.bbIncoming bb', edge.cfgFrom = bb := by
  simp only [Edge, succ, List.mem_map]
  constructor
  · rintro ⟨edge, member, rfl⟩
    have source := g.outgoing_from bb edge member
    subst source
    exact ⟨edge, (g.mirrored edge).mp member, rfl⟩
  · rintro ⟨edge, member, rfl⟩
    have target := g.incoming_to bb' edge member
    subst target
    exact ⟨edge, (g.mirrored edge).mpr member, rfl⟩

/-- Every block, and every source of an edge, is reachable from the root. -/
structure Connected : Prop where
  nodes : ∀ bb ∈ g.gNodes, Reachable g.Edge g.gRoot bb
  sources : ∀ bb bb', g.Edge bb bb' → bb ∈ g.gNodes

/-- The graph `add_cfg_edge` builds from a list of edges, the newest one in front. -/
def ofEdges (gRoot : Nat) (gNodes : List Nat) (edges : List (CfgEdge Texpr))
    (root_mem : gRoot ∈ gNodes) (targets : ∀ edge ∈ edges, edge.cfgTo ∈ gNodes) : Cfg Texpr where
  gRoot := gRoot
  gNodes := gNodes
  bbOutgoing bb := edges.filter fun edge => edge.cfgFrom = bb
  bbIncoming bb := edges.filter fun edge => edge.cfgTo = bb
  root_mem := root_mem
  outgoing_from bb edge member := by simpa using (List.mem_filter.mp member).2
  incoming_to bb edge member := by simpa using (List.mem_filter.mp member).2
  mirrored edge := by simp
  target_mem bb edge member := targets edge (List.mem_of_mem_filter member)

end Cfg

end Haxe.Source.Optimization

/-!
## `Graph.infer_immediate_dominators`

The records are mutable and refer to each other, and the code compares them
physically, so they live at addresses of a heap. `add_info` first ties a record
to itself and, except at the root, then copies it with another `parent`: the copy
gets its own address, while its `idom`, `label` and `ancestor` still hold the
address of the record it was copied from. `none` is `Not_found`, an assertion, or
lack of fuel.
-/

namespace Haxe.Source.Optimization.Dominators

structure DomBbInfo where
  bb : Nat
  parent : Nat
  idom : Nat
  semi : Nat
  label : Nat
  ancestor : Nat
  bucket : List Nat
  deriving DecidableEq, Repr

abbrev Heap := Nat → DomBbInfo

/-- Assign to a field of the record at an address. -/
def Heap.assign (heap : Heap) (address : Nat) (f : DomBbInfo → DomBbInfo) : Heap :=
  Function.update heap address (f (heap address))

/-- The hash table, the dynamic array and the heap while blocks are numbered. -/
structure Numbering where
  heap : Heap
  allocated : Nat
  info : Nat → Option Nat
  nodes : List Nat
  bbDominated : Nat → List Nat

def Numbering.alloc (st : Numbering) (record : DomBbInfo) : Numbering :=
  { st with heap := Function.update st.heap st.allocated record, allocated := st.allocated + 1 }

/-- `Hashtbl.add info bb.bb_id bbi; DynArray.add nodes bbi`. -/
def Numbering.register (st : Numbering) (bb bbi : Nat) : Numbering :=
  { st with info := Function.update st.info bb (some bbi), nodes := st.nodes ++ [bbi] }

def addInfo (st : Numbering) (bb bbParent : Nat) : Option Numbering :=
  let bbi := st.allocated
  let record : DomBbInfo :=
    { bb, parent := bbi, idom := bbi, semi := st.nodes.length, label := bbi, ancestor := bbi,
      bucket := [] }
  let st := st.alloc record
  if bb = bbParent then some (st.register bb bbi)
  else do
    let parent ← st.info bbParent
    let copy := st.allocated
    some ((st.alloc { record with parent }).register bb copy)

variable {Texpr : Type} (g : Cfg Texpr)

/-- The recursive `loop bb_parent bb` that numbers the blocks. -/
def numberBlocks : Nat → Numbering → Nat → Nat → Option Numbering
  | 0, _, _, _ => none
  | fuel + 1, st, bbParent, bb => do
    let st ← addInfo { st with bbDominated := Function.update st.bbDominated bb [] } bb bbParent
    (g.bbOutgoing bb).foldlM
      (fun st edge => if (st.info edge.cfgTo).isSome then some st
        else numberBlocks fuel st bb edge.cfgTo) st

/-- `loop l bbi` in `compress`: the records from the forest's top down to the first one. -/
def ancestors (heap : Heap) : Nat → List Nat → Nat → Option (List Nat)
  | 0, _, _ => none
  | fuel + 1, l, bbi =>
    if (heap bbi).ancestor = bbi then some l
    else ancestors heap fuel (bbi :: l) (heap bbi).ancestor

/-- The folded function of `compress`, with the heap it changes. -/
def relabel (acc : Heap × Nat × Nat) (bbiDesc : Nat) : Heap × Nat × Nat :=
  let (heap, a, minSemi) := acc
  let bbi := (heap bbiDesc).label
  if (heap bbi).semi > minSemi then
    (heap.assign bbiDesc fun r => { r with label := (heap a).label }, bbiDesc, minSemi)
  else (heap, bbiDesc, (heap bbi).semi)

def compress (fuel : Nat) (heap : Heap) (bbi : Nat) : Option Heap := do
  match ← ancestors heap fuel [bbi] (heap bbi).ancestor with
  | a :: worklist =>
    some (worklist.foldl relabel (heap, a, (heap (heap a).label).semi)).1
  | [] => none

def eval (fuel : Nat) (info : Nat → Option Nat) (heap : Heap) (v : Nat) : Option (Heap × Nat) := do
  let bbi ← info v
  if (heap bbi).ancestor ≠ bbi then
    let heap ← compress fuel heap bbi
    some (heap, (heap bbi).label)
  else some (heap, bbi)

/-- The fold over `w.bb.bb_incoming` that computes the semidominator. -/
def evalIncoming (fuel : Nat) (info : Nat → Option Nat) :
    List (CfgEdge Texpr) → Heap → Nat → Option (Heap × Nat)
  | [], heap, acc => some (heap, acc)
  | v :: incoming, heap, acc => do
    let (heap, u) ← eval fuel info heap v.cfgFrom
    evalIncoming fuel info incoming heap (min acc (heap u).semi)

/-- The iteration over `bbi_p.bucket`. -/
def settleBucket (fuel : Nat) (info : Nat → Option Nat) (bbiP : Nat) :
    List Nat → Heap → Option Heap
  | [], heap => some heap
  | v :: bucket, heap => do
    let (heap, u) ← eval fuel info heap (heap v).bb
    let idom := if (heap u).semi < (heap v).semi then u else bbiP
    settleBucket fuel info bbiP bucket (heap.assign v fun r => { r with idom })

/-- `loop nodes'` over the nodes in decreasing order. -/
def semidominators (fuel : Nat) (info : Nat → Option Nat) (nodes : List Nat) :
    List Nat → Heap → Option Heap
  | [], _ => none
  | [_], heap => some heap
  | w :: rest, heap => do
    let (heap, semi) ← evalIncoming fuel info (g.bbIncoming (heap w).bb) heap (heap w).semi
    let heap := heap.assign w fun r => { r with semi }
    let bbi ← nodes[semi]?
    let heap := heap.assign bbi fun r => { r with bucket := w :: r.bucket }
    let bbiP := (heap w).parent
    let heap := heap.assign w fun r => { r with ancestor := bbiP }
    let heap ← settleBucket fuel info bbiP (heap bbiP).bucket heap
    let heap := heap.assign bbiP fun r => { r with bucket := [] }
    semidominators fuel info nodes rest heap

/-- The pass over `List.tl l`. -/
def adjustIdoms (nodes : List Nat) : List Nat → Heap → Option Heap
  | [], heap => some heap
  | w :: rest, heap => do
    let semi ← nodes[(heap w).semi]?
    if (heap w).idom ≠ semi then
      adjustIdoms nodes rest (heap.assign w fun r => { r with idom := (heap (heap w).idom).idom })
    else adjustIdoms nodes rest heap

/-- The `bb_dominator` and `bb_dominated` fields of all blocks. -/
structure DominatorTree where
  bbDominator : Nat → Nat
  bbDominated : Nat → List Nat

/-- The last iteration, which writes the result into the blocks. -/
def writeBack (heap : Heap) : List Nat → DominatorTree → DominatorTree
  | [], tree => tree
  | bbi :: rest, tree =>
    let bb := (heap bbi).bb
    let bb' := (heap (heap bbi).idom).bb
    if (heap bbi).idom ≠ bbi ∧ bb ≠ bb' then
      writeBack heap rest
        { bbDominator := Function.update tree.bbDominator bb bb'
          bbDominated := Function.update tree.bbDominated bb' (bb :: tree.bbDominated bb') }
    else writeBack heap rest tree

/-- The function on a graph whose blocks hold the given dominator fields. -/
def inferImmediateDominators (tree : DominatorTree) : Option DominatorTree := do
  let start : Numbering :=
    { heap := fun _ => ⟨0, 0, 0, 0, 0, 0, []⟩, allocated := 0, info := fun _ => none, nodes := [],
      bbDominated := tree.bbDominated }
  let st ← numberBlocks g (g.gNodes.length + 1) start g.gRoot g.gRoot
  let fuel := st.allocated + 1
  let heap ← semidominators g fuel st.info st.nodes st.nodes.reverse st.heap
  let heap ← adjustIdoms st.nodes st.nodes.tail heap
  some (writeBack heap st.nodes { tree with bbDominated := st.bbDominated })

end Haxe.Source.Optimization.Dominators
