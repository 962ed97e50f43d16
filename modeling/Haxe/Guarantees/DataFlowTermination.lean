import Haxe.Source.Optimization.LatticeDescent

/-!
# Termination of the data flow solver

Copy propagation ends on every graph. Constant propagation ends exactly on the graphs on which
its turns lift a cell finitely often. A constructor keeps an unknown argument, and two such values
are equal, so a loop can turn a constant into an unknown value and back.
-/

namespace Haxe.Guarantees

open Haxe.Source.Core
open Haxe.Source.Optimization Haxe.Source.Optimization.DataFlow
open Haxe.Theory.Worklist

section Runs

variable {T : Type} {M : DataFlowApi T} {g : SsaGraph} {s t : State T}

theorem step_finished (finished : Finished s) : step M g.toGraph s = some s := by
  unfold step
  rw [finished.1, finished.2]

theorem after_finished (finished : Finished s) (n : Nat) :
    after (step M g.toGraph) s n = some s := by
  induction n with
  | zero => rfl
  | succ n ih => rw [after, ih, Option.bind_some, step_finished finished]

theorem after_valid (valid : Valid g s) (n : Nat) :
    ∃ t, after (step M g.toGraph) s n = some t ∧ Valid g t := by
  induction n with
  | zero => exact ⟨s, rfl, valid⟩
  | succ n ih =>
    obtain ⟨t, reached, valid'⟩ := ih
    by_cases finished : Finished t
    · exact ⟨t, by rw [after, reached, Option.bind_some, step_finished finished], valid'⟩
    · obtain ⟨u, went, valid'', _⟩ := step_turn (M := M) valid' finished
      exact ⟨u, by rw [after, reached, Option.bind_some, went], valid''⟩

end Runs

theorem lifts_finished {ctx : ConstPropagation.Context} {g : Graph}
    {s : State ConstPropagation.Lattice} (finished : Finished s) :
    ConstPropagation.lifts ctx g s = false := by
  unfold ConstPropagation.lifts pendingWrite
  rw [finished.1, finished.2]
  rfl

/-- Both runs empty their work lists iff from some turn on no turn of constant propagation
lifts a cell. -/
theorem solver_ends_iff (ctx : ConstPropagation.Context) (g : SsaGraph) :
    (Ends (step (ConstPropagation.api ctx) g.toGraph) Finished (start g.toGraph) ∧
        Ends (step CopyPropagation.api g.toGraph) Finished (start g.toGraph)) ↔
      ∃ n, ∀ m ≥ n, ∀ s,
        after (step (ConstPropagation.api ctx) g.toGraph) (start g.toGraph) m = some s →
          ConstPropagation.lifts ctx g.toGraph s = false := by
  constructor
  · intro ends
    obtain ⟨n, t, reached, finished⟩ := ends.1
    refine ⟨n, fun m later s reached' => ?_⟩
    obtain ⟨k, rfl⟩ := Nat.exists_eq_add_of_le later
    rw [after_add n k reached, after_finished finished] at reached'
    cases reached'
    exact lifts_finished finished
  · intro steady
    obtain ⟨n, steady⟩ := steady
    refine ⟨?_, CopyPropagation.ends (start_valid g)⟩
    obtain ⟨t, reached, valid⟩ :=
      after_valid (M := ConstPropagation.api ctx) (start_valid g) n
    apply Ends.of_after reached
    apply ConstPropagation.ends_of_steady valid
    intro m u later
    exact steady (n + m) (Nat.le_add_right n m) u ((after_add n m reached).trans later)

/-! A loop that goes on: `y = A(read())`, then `while (!stop()) { x = index(y); y = A(x); }`. -/

namespace WrappingLoop

open ConstPropagation

def local_ (i : Nat) : Texpr := .tLocal ⟨i, false, false⟩

def assign (i : Nat) (e : Texpr) : Texpr := .tBinop .opAssign (local_ i) e

def call (name : String) : Texpr := .tCall (.tFieldStatic "Main" name) []

def true_ : Texpr := .tConst (.tBool true) 0

def enter : CfgEdge Texpr := ⟨0, 0, 1, .cfgFunction⟩
def toHead : CfgEdge Texpr := ⟨1, 1, 2, .cfgGoto⟩
def stop : CfgEdge Texpr := ⟨2, 3, 4, .cfgCondBranch true_⟩
def goOn : CfgEdge Texpr := ⟨3, 3, 5, .cfgCondElse⟩
def leave : CfgEdge Texpr := ⟨4, 4, 6, .cfgGoto⟩
def back : CfgEdge Texpr := ⟨5, 5, 2, .cfgGoto⟩
def toBody : CfgEdge Texpr := ⟨6, 2, 3, .cfgGoto⟩

def edges : List (CfgEdge Texpr) := [toBody, back, leave, goOn, stop, toHead, enter]

def block : Nat → Block
  | 1 => ⟨[assign 0 (.tCall (.tFieldEnum 0) [call "read"])], [], .termNone⟩
  | 2 => ⟨[], [assign 1 (.tPhi [local_ 3, local_ 0])], .termCondBranch true_⟩
  | 3 => ⟨[], [], .termCondBranch (call "stop")⟩
  | 4 => ⟨[], [], .termBreak⟩
  | 5 =>
    ⟨[assign 2 (.tEnumIndex (local_ 1)), assign 3 (.tCall (.tFieldEnum 0) [local_ 2])], [],
      .termNone⟩
  | _ => ⟨[], [], .termReturn⟩

def uses : Nat → List (Nat × TexprLookup)
  | 0 | 3 => [(2, .luPhi 0)]
  | 1 => [(5, .luEl 0)]
  | 2 => [(5, .luEl 1)]
  | _ => []

def graph : Graph where
  toCfg := .ofEdges 0 [0, 1, 2, 3, 4, 5, 6] edges (by decide) (by decide)
  block := block
  ssaEdges := uses

def operands : Texpr → Option Nat
  | .tPhi el => some el.length
  | _ => none

/-- Where the graph assigns, to which variable, and the operands of the phi if it is one. -/
def assignments : List ((Nat × TexprLookup) × Nat × Option Nat) :=
  [((1, .luEl 0), 0, none), ((2, .luPhi 0), 1, some 2), ((5, .luEl 0), 2, none),
    ((5, .luEl 1), 3, none)]

/-- No terminator assigns. -/
theorem assigned_terminator {bb : Nat} {e : Texpr} (found : graph.getTexpr bb .luTerm = some e) :
    assigned e = none := by
  obtain _ | _ | _ | _ | _ | _ | bb := bb <;>
    first | (cases found; done) | (cases Option.some.inj found; rfl)

theorem mem_assignments {bb : Nat} {luk : TexprLookup} {e e2 : Texpr} {v : SsaVar}
    (found : graph.getTexpr bb luk = some e) (assigns : assigned e = some (v, e2)) :
    ((bb, luk), v.vId, operands e2) ∈ assignments := by
  cases luk with
  | luPhi i =>
    obtain _ | _ | _ | _ | _ | _ | bb := bb <;> obtain _ | i := i <;> cases found
    cases assigns
    decide
  | luEl i =>
    obtain _ | _ | _ | _ | _ | _ | bb := bb <;> obtain _ | _ | i := i <;> cases found <;>
      cases assigns <;> decide
  | luTerm =>
    rw [assigned_terminator found] at assigns
    cases assigns

theorem uses_mem {v : Nat} {use : Nat × TexprLookup} (member : use ∈ uses v) :
    use ∈ assignments.map Prod.fst := by
  obtain _ | _ | _ | _ | v := v
  case succ.succ.succ.succ => cases member
  all_goals
    cases List.mem_singleton.mp member
    decide

def loop : SsaGraph where
  toGraph := graph
  edgeCount := 7
  vars := [0, 1, 2, 3]
  edge_lt bb edge member := by
    have all : ∀ edge ∈ edges, edge.cfgId < 7 := by decide
    exact all edge (List.mem_filter.mp member).1
  use_some v use member := by
    have all : ∀ use ∈ assignments.map Prod.fst, (graph.getTexpr use.1 use.2).isSome := by decide
    exact Option.isSome_iff_exists.mp (all use (uses_mem member))
  phi_assigns bb e member := by
    obtain _ | _ | _ | _ | _ | _ | bb := bb
    case succ.succ.zero =>
      cases List.mem_singleton.mp member
      exact ⟨_, _, rfl⟩
    all_goals cases member
  phi_operands bb luk e v el found assigns := by
    have all : ∀ a ∈ assignments, ∀ n, a.2.2 = some n → n = (graph.bbIncoming a.1.1).length := by
      decide
    have member := mem_assignments found assigns
    exact all _ member el.length rfl
  assigned_mem bb luk e v e2 found assigns := by
    have all : ∀ a ∈ assignments, a.2.1 ∈ [0, 1, 2, 3] := by decide
    exact all _ (mem_assignments found assigns)
  assigned_once bb luk e v e2 bb' luk' e' v' e2' found assigns found' assigns' same := by
    have once : ∀ a ∈ assignments, ∀ b ∈ assignments, a.2.1 = b.2.1 → a.1 = b.1 := by decide
    exact Prod.mk.inj
      (once _ (mem_assignments found assigns) _ (mem_assignments found' assigns') same)

/-- The optimizer and the inliner have nothing to add. -/
def context : Context :=
  ⟨fun _ => false, false, 0, fun _ _ _ => none, fun _ _ _ => none, fun _ _ _ => none⟩

def zero : Lattice := .const (.tInt 0)
def known : Lattice := .enumValue 0 [zero]
def unknown : Lattice := .enumValue 0 [.bottom]

/-- The states before the loop has been entered for the second time. -/
def entering : List (State Lattice) :=
  [⟨[], [], [], [enter]⟩,
    ⟨[0], [(0, unknown)], [(2, .luPhi 0)], [toHead, toHead]⟩,
    ⟨[1, 0], [(0, unknown), (1, unknown)], [(5, .luEl 0), (2, .luPhi 0)],
      [toBody, toBody, toHead]⟩,
    ⟨[6, 1, 0], [(0, unknown), (1, unknown)], [(5, .luEl 0), (2, .luPhi 0)],
      [stop, goOn, toBody, toHead]⟩,
    ⟨[2, 6, 1, 0], [(0, unknown), (1, unknown)], [(5, .luEl 0), (2, .luPhi 0)],
      [leave, leave, goOn, toBody, toHead]⟩,
    ⟨[4, 2, 6, 1, 0], [(0, unknown), (1, unknown)], [(5, .luEl 0), (2, .luPhi 0)],
      [leave, goOn, toBody, toHead]⟩,
    ⟨[4, 2, 6, 1, 0], [(0, unknown), (1, unknown)], [(5, .luEl 0), (2, .luPhi 0)],
      [goOn, toBody, toHead]⟩,
    ⟨[3, 4, 2, 6, 1, 0], [(0, unknown), (1, unknown), (2, zero), (3, known)],
      [(2, .luPhi 0), (5, .luEl 1), (5, .luEl 0), (2, .luPhi 0)], [back, back, toBody, toHead]⟩]

/-- The states after it, which differ in the cells of the loop and in the next use. -/
def spin (y1 x y2 : Lattice) (use : Nat × TexprLookup) (edges : List (CfgEdge Texpr)) :
    State Lattice :=
  ⟨[5, 3, 4, 2, 6, 1, 0], [(0, unknown), (1, y1), (2, x), (3, y2)],
    [use, (2, .luPhi 0), (5, .luEl 1), (5, .luEl 0), (2, .luPhi 0)], edges⟩

def spinning : List (State Lattice) :=
  [spin .bottom zero known (5, .luEl 0) [toBody, back, toBody, toHead],
    spin .bottom zero known (5, .luEl 0) [back, toBody, toHead],
    spin .bottom zero known (5, .luEl 0) [toBody, toHead],
    spin .bottom zero known (5, .luEl 0) [toHead],
    spin .bottom zero known (5, .luEl 0) [],
    spin .bottom .bottom known (5, .luEl 1) [],
    spin .bottom .bottom unknown (2, .luPhi 0) [],
    spin unknown .bottom unknown (5, .luEl 0) [],
    spin unknown zero unknown (5, .luEl 1) [],
    spin unknown zero known (2, .luPhi 0) []]

/-- Each state leads to the next, and the last one back to the loop. -/
theorem entering_spinning : (entering ++ spinning ++
    [spin .bottom zero known (5, .luEl 0) []]).IsChain fun s t =>
      step (api context) loop.toGraph s = some t := by
  repeat' constructor

theorem busy (s : State Lattice) (member : s ∈ entering ++ spinning) : ¬ Finished s := by
  have all : (entering ++ spinning).all fun s =>
      !s.cfgWorkList.isEmpty || !s.ssaWorkList.isEmpty := by decide
  have here := List.all_eq_true.mp all s member
  intro finished
  rw [finished.1, finished.2] at here
  cases here

theorem never_ends : ¬ Ends (step (api context) loop.toGraph) Finished (start loop.toGraph) := by
  apply not_ends_of_cycle entering_spinning _ busy List.mem_cons_self
  apply List.mem_append_right
  repeat constructor

end WrappingLoop

/-- Constant propagation of an enum value that wraps its own index runs forever. -/
theorem solver_runs_forever : ¬ ∀ (ctx : ConstPropagation.Context) (g : SsaGraph),
    Ends (step (ConstPropagation.api ctx) g.toGraph) Finished (start g.toGraph) ∧
      Ends (step CopyPropagation.api g.toGraph) Finished (start g.toGraph) := by
  intro claim
  exact WrappingLoop.never_ends (claim WrappingLoop.context WrappingLoop.loop).1

end Haxe.Guarantees
