import Haxe.Source.Optimization.ConstPropagation
import Haxe.Theory.Worklist

/-!
# What a turn of the data flow solver does

No visit takes a flag off an edge, and all that the lists ever get are edges and uses of the
graph. A turn over an edge flags it or drops it. A turn over a use writes at most one cell.
-/

namespace Haxe.Source.Optimization.DataFlow

open Theory.Worklist

/-- A graph in SSA form: the lists of edges and uses are those of the graph, a phi has an operand
for each incoming edge, and a variable is assigned by one expression. -/
structure SsaGraph extends Graph where
  edgeCount : Nat
  vars : List Nat
  edge_lt : ∀ bb, ∀ edge ∈ bbOutgoing bb, edge.cfgId < edgeCount
  use_some : ∀ v, ∀ use ∈ ssaEdges v, ∃ e, toGraph.getTexpr use.1 use.2 = some e
  phi_assigns : ∀ bb, ∀ e ∈ (block bb).bbPhi, ∃ v el, e = .tBinop .opAssign (.tLocal v) (.tPhi el)
  phi_operands : ∀ bb luk e v el, toGraph.getTexpr bb luk = some e →
    assigned e = some (v, .tPhi el) → el.length = (bbIncoming bb).length
  assigned_mem : ∀ bb luk e v e2, toGraph.getTexpr bb luk = some e → assigned e = some (v, e2) →
    v.vId ∈ vars
  assigned_once : ∀ bb luk e v e2 bb' luk' e' v' e2', toGraph.getTexpr bb luk = some e →
    assigned e = some (v, e2) → toGraph.getTexpr bb' luk' = some e' →
    assigned e' = some (v', e2') → v.vId = v'.vId → bb = bb' ∧ luk = luk'

section Cells

variable {T : Type} (M : DataFlowApi T)

theorem getCell_setCell (cells : List (Nat × T)) (i j : Nat) (ct : T) :
    getCell M (setCell cells i ct) j = if j = i then ct else getCell M cells j := by
  induction cells with
  | nil =>
    by_cases same : j = i
    · simp [setCell, getCell, same]
    · simp [setCell, getCell, same, Ne.symm same]
  | cons cell cells ih =>
    rw [setCell]
    unfold getCell at ih ⊢
    by_cases first : cell.1 = i
    · rw [if_pos first]
      by_cases same : j = i
      · simp [same]
      · simp [first, same, Ne.symm same]
    · rw [if_neg first]
      by_cases here : cell.1 = j
      · have other : j ≠ i := fun same => first (here.trans same)
        simp [here, other]
      · simpa [here] using ih

end Cells

section Visits

variable {T : Type} {M : DataFlowApi T} {g : SsaGraph} {s s' s'' : State T}

/-- What visits leave as it was, and where what they add to the lists comes from. -/
structure Grows (g : SsaGraph) (s s' : State T) : Prop where
  flagged : s'.flagged = s.flagged
  uses : ∀ use ∈ s'.ssaWorkList, use ∈ s.ssaWorkList ∨ ∃ v, use ∈ g.ssaEdges v
  edges : ∀ edge ∈ s'.cfgWorkList, edge ∈ s.cfgWorkList ∨ ∃ bb, edge ∈ g.bbOutgoing bb

theorem Grows.refl (s : State T) : Grows g s s :=
  ⟨rfl, fun _ member => .inl member, fun _ member => .inl member⟩

theorem Grows.trans (first : Grows g s s') (second : Grows g s' s'') : Grows g s s'' where
  flagged := second.flagged.trans first.flagged
  uses use member := by
    obtain old | new := second.uses use member
    · exact first.uses use old
    · exact .inr new
  edges edge member := by
    obtain old | new := second.edges edge member
    · exact first.edges edge old
    · exact .inr new

theorem setLatticeCell_grows (v : SsaVar) (e : T) :
    Grows g s (setLatticeCell M g.toGraph s v e) where
  flagged := rfl
  uses use member := by
    unfold setLatticeCell at member
    dsimp only at member
    split at member
    · exact .inl member
    · obtain new | old := List.mem_append.mp member
      · exact .inr ⟨v.vId, List.mem_reverse.mp new⟩
      · exact .inl old
  edges _ member := .inl member

theorem addCfgEdges_grows {edges : List (CfgEdge Texpr)} (bb : Nat)
    (subset : edges ⊆ g.bbOutgoing bb) : Grows g s (addCfgEdges s edges) where
  flagged := rfl
  uses _ member := .inl member
  edges edge member := by
    obtain new | old := List.mem_append.mp member
    · exact .inr ⟨bb, subset (List.mem_reverse.mp new)⟩
    · exact .inl old

theorem branchEdges_subset (s : State T) (e1 : T) (outgoing : List (CfgEdge Texpr)) :
    branchEdges M s e1 outgoing ⊆ outgoing := by
  intro edge member
  unfold branchEdges at member
  dsimp only at member
  split at member
  · exact member
  · rename_i none _
    rw [List.mem_append, List.mem_reverse, List.mem_reverse] at member
    exact member.elim (List.mem_of_mem_filter ·) (List.mem_of_mem_filter ·)
  · rw [List.mem_append, List.mem_reverse, List.mem_reverse] at member
    exact member.elim (List.mem_of_mem_filter ·) (List.mem_of_mem_filter ·)

/-- The value that an assignment in a block gives, if it gives one. -/
def valueAt (M : DataFlowApi T) (g : Graph) (s : State T) (bb : Nat) : Texpr → Option T
  | .tPhi el => visitPhi M g s bb el
  | e => if (g.bbIncoming bb).any (hasFlag s) then some (transferIn M s e) else none

theorem visitPhi_some {bb : Nat} {el : List Texpr} (fits : el.length = (g.bbIncoming bb).length) :
    ∃ e, visitPhi M g.toGraph s bb el = some e := by
  unfold visitPhi
  rw [if_pos fits]
  dsimp only
  split
  · exact ⟨_, rfl⟩
  · exact ⟨_, rfl⟩

/-- A value written to the cell of a variable, if there is one. -/
def writeValue (M : DataFlowApi T) (g : Graph) (s : State T) (v : SsaVar) (value : Option T) :
    State T :=
  value.elim s (setLatticeCell M g s v)

theorem visitAssignment_eq {bb : Nat} {v : SsaVar} {e2 : Texpr}
    (fits : ∀ el, e2 = .tPhi el → el.length = (g.bbIncoming bb).length) :
    visitAssignment M g.toGraph s bb v e2 =
      some (writeValue M g.toGraph s v (valueAt M g.toGraph s bb e2)) := by
  cases e2
  case tPhi el =>
    obtain ⟨e, found⟩ := visitPhi_some (M := M) (s := s) (fits el rfl)
    simp [visitAssignment, valueAt, found, writeValue]
  all_goals
    by_cases executable : (g.bbIncoming bb).any (hasFlag s) = true
    · simp only [visitAssignment, valueAt, if_pos executable, writeValue, Option.elim_some]
    · simp only [visitAssignment, valueAt, if_neg executable, writeValue, Option.elim_none]

theorem writeValue_grows (v : SsaVar) (value : Option T) :
    Grows g s (writeValue M g.toGraph s v value) := by
  cases value with
  | none => exact .refl s
  | some e => exact setLatticeCell_grows v e

/-- A visit of an expression of the graph. -/
theorem visitExpression_some {bb : Nat} {luk : TexprLookup} {e : Texpr}
    (found : g.toGraph.getTexpr bb luk = some e) (condBranch : Bool) :
    ∃ s' b, visitExpression M g.toGraph s bb condBranch e = some (s', b) ∧ Grows g s s' := by
  unfold visitExpression
  cases assigns : assigned e with
  | some target =>
    obtain ⟨v, e2⟩ := target
    have fits (el : List Texpr) (phi : e2 = .tPhi el) : el.length = (g.bbIncoming bb).length :=
      g.phi_operands bb luk e v el found (phi ▸ assigns)
    refine ⟨writeValue M g.toGraph s v (valueAt M g.toGraph s bb e2), false, ?_,
      writeValue_grows v _⟩
    simp only [visitAssignment_eq fits, Option.map_some]
  | none =>
    dsimp only
    split
    · refine ⟨_, true, rfl, addCfgEdges_grows bb ?_⟩
      split
      · exact List.Subset.refl _
      · exact branchEdges_subset s _ _
    · exact ⟨s, false, rfl, .refl s⟩

theorem getTexpr_el {bb : Nat} {e : Texpr} (member : e ∈ (g.block bb).bbEl) :
    ∃ luk, g.toGraph.getTexpr bb luk = some e := by
  obtain ⟨i, here⟩ := List.getElem?_of_mem member
  exact ⟨.luEl i, here⟩

theorem visitNext_some {bb : Nat} {luk : TexprLookup} {e : Texpr}
    (found : g.toGraph.getTexpr bb luk = some e) (condBranch : Bool) (visited : State T × Bool) :
    ∃ next, visitNext M g.toGraph bb condBranch visited e = some next ∧
      Grows g visited.1 next.1 := by
  obtain ⟨s', b, visits, grows⟩ :=
    visitExpression_some (M := M) (s := visited.1) found condBranch
  refine ⟨(s', b || visited.2), ?_, grows⟩
  rw [visitNext, visits]
  rfl

theorem visitElements_some (bb : Nat) (el : List Texpr) (visited : State T × Bool)
    (members : ∀ e ∈ el, e ∈ (g.block bb).bbEl) :
    ∃ next, el.foldlM (visitNext M g.toGraph bb false) visited = some next ∧
      Grows g visited.1 next.1 := by
  induction el generalizing visited with
  | nil => exact ⟨visited, rfl, .refl _⟩
  | cons e el ih =>
    obtain ⟨luk, found⟩ := getTexpr_el (members e List.mem_cons_self)
    obtain ⟨next, visits, grows⟩ := visitNext_some (M := M) found false visited
    obtain ⟨last, rest, grows'⟩ := ih next fun e' member =>
      members e' (List.mem_cons_of_mem e member)
    refine ⟨last, ?_, grows.trans grows'⟩
    rw [List.foldlM_cons, visits]
    exact rest

/-- A visit of the expressions of a block. -/
theorem visitExpressions_some (s : State T) (bb : Nat) :
    ∃ s', visitExpressions M g.toGraph s bb = some s' ∧ Grows g s s' := by
  obtain ⟨visited, visits, grows⟩ := visitElements_some (M := M) (g := g) bb
    (g.block bb).bbEl (s, false) fun e member => member
  have leave (last : State T × Bool) (grows' : Grows g visited.1 last.1) :
      Grows g s (if last.2 then last.1 else addCfgEdges last.1 (g.bbOutgoing bb)) := by
    split
    · exact grows.trans grows'
    · exact (grows.trans grows').trans (addCfgEdges_grows bb (List.Subset.refl _))
  have terminator (e1 : Texpr)
      (ends : (g.block bb).bbTerminator = .termCondBranch e1 ∨
        (g.block bb).bbTerminator = .termReturnValue e1 ∨
        (g.block bb).bbTerminator = .termThrow e1) :
      g.toGraph.getTexpr bb .luTerm = some e1 := by
    unfold Graph.getTexpr
    obtain ends | ends | ends := ends <;> rw [ends]
  unfold visitExpressions
  rw [visits]
  cases ends : (g.block bb).bbTerminator
  case termCondBranch e1 =>
    obtain ⟨last, branches, grows'⟩ :=
      visitNext_some (M := M) (terminator e1 (.inl ends)) true visited
    refine ⟨_, ?_, leave last grows'⟩
    simp only [Option.bind_eq_bind, Option.bind_some, branches]
  case termReturnValue e1 =>
    obtain ⟨s', b, returns, grows'⟩ :=
      visitExpression_some (M := M) (s := visited.1) (terminator e1 (.inr (.inl ends))) false
    refine ⟨_, ?_, leave (s', b) grows'⟩
    simp only [Option.bind_eq_bind, Option.bind_some, returns]
  case termThrow e1 =>
    obtain ⟨s', b, throws, grows'⟩ :=
      visitExpression_some (M := M) (s := visited.1) (terminator e1 (.inr (.inr ends))) false
    refine ⟨_, ?_, leave (s', b) grows'⟩
    simp only [Option.bind_eq_bind, Option.bind_some, throws]
  all_goals exact ⟨_, rfl, leave visited (.refl _)⟩

/-- A visit of the phis of a block. -/
theorem visitPhis_some (s : State T) (bb : Nat) :
    ∃ s', visitPhis M g.toGraph s bb = some s' ∧ Grows g s s' := by
  have all : ∀ (phis : List Texpr) (s : State T), (∀ e ∈ phis, e ∈ (g.block bb).bbPhi) →
      ∃ s', phis.foldlM (visitPhiAssignment M g.toGraph bb) s = some s' ∧ Grows g s s' := by
    intro phis
    induction phis with
    | nil => exact fun s _ => ⟨s, rfl, .refl s⟩
    | cons e phis ih =>
      intro s members
      have member := members e List.mem_cons_self
      obtain ⟨v, el, same⟩ := g.phi_assigns bb e member
      obtain ⟨i, here⟩ := List.getElem?_of_mem member
      have fits := g.phi_operands bb (.luPhi i) e v el here (by rw [same]; rfl)
      obtain ⟨value, found⟩ := visitPhi_some (M := M) (s := s) fits
      obtain ⟨s', rest, grows⟩ := ih (setLatticeCell M g.toGraph s v value) fun e' member' =>
        members e' (List.mem_cons_of_mem e member')
      refine ⟨s', ?_, (setLatticeCell_grows v value).trans grows⟩
      rw [List.foldlM_cons, same, visitPhiAssignment, found]
      exact rest
  exact all (g.block bb).bbPhi s fun e member => member

end Visits

section Turns

variable {T : Type} {M : DataFlowApi T} {g : SsaGraph} {s s' : State T}

/-- The lists hold edges and uses of the graph. -/
structure Valid (g : SsaGraph) (s : State T) : Prop where
  uses : ∀ use ∈ s.ssaWorkList, ∃ e, g.toGraph.getTexpr use.1 use.2 = some e
  edges : ∀ edge ∈ s.cfgWorkList, edge.cfgId < g.edgeCount

theorem Valid.grow (valid : Valid g s) (grows : Grows g s s') : Valid g s' where
  uses use member := by
    obtain old | new := grows.uses use member
    · exact valid.uses use old
    · obtain ⟨v, member⟩ := new
      exact g.use_some v use member
  edges edge member := by
    obtain old | new := grows.edges edge member
    · exact valid.edges edge old
    · obtain ⟨bb, member⟩ := new
      exact g.edge_lt bb edge member

theorem start_valid (g : SsaGraph) : Valid g (start (T := T) g.toGraph) where
  uses _ member := absurd member List.not_mem_nil
  edges edge member := g.edge_lt g.gRoot edge member

/-- How many edges have no flag. -/
def unflagged (g : SsaGraph) (flagged : List Nat) : Nat :=
  total (fun i => if flagged.any fun flag => flag = i then 0 else 1) (List.range g.edgeCount)

theorem unflagged_lt {flagged : List Nat} {i : Nat} (inside : i < g.edgeCount)
    (fresh : (flagged.any fun flag => flag = i) = false) :
    unflagged g (i :: flagged) < unflagged g flagged := by
  apply total_lt (List.mem_range.mpr inside)
  · simp [fresh]
  · intro j other
    simp [Ne.symm other]

/-- A turn over an edge flags it, or drops it. -/
theorem edge_turn (valid : Valid g s) {edge : CfgEdge Texpr} {edges : List (CfgEdge Texpr)}
    (work : s.cfgWorkList = edge :: edges) :
    ∃ s', step M g.toGraph s = some s' ∧ Valid g s' ∧
      (unflagged g s'.flagged < unflagged g s.flagged ∨
        s' = { s with cfgWorkList := edges }) := by
  have inside := valid.edges edge (work ▸ List.mem_cons_self)
  have dropped : Valid g { s with cfgWorkList := edges } :=
    ⟨valid.uses, fun other member => valid.edges other (work ▸ List.mem_cons_of_mem edge member)⟩
  unfold step
  rw [work]
  dsimp only
  by_cases flagged : hasFlag { s with cfgWorkList := edges } edge = true
  · rw [if_pos flagged]
    exact ⟨_, rfl, dropped, .inr rfl⟩
  · rw [if_neg flagged]
    have fresh : (s.flagged.any fun flag => flag = edge.cfgId) = false :=
      Bool.eq_false_iff.mpr flagged
    obtain ⟨s1, phis, grows1⟩ := visitPhis_some (M := M) (g := g)
      { s with cfgWorkList := edges, flagged := edge.cfgId :: s.flagged } edge.cfgTo
    obtain ⟨s2, visits, grows2⟩ : ∃ s2, visitOnce M g.toGraph s1 edge.cfgTo = some s2 ∧
        Grows g s1 s2 := by
      unfold visitOnce
      dsimp only
      split
      · exact visitExpressions_some s1 edge.cfgTo
      · exact ⟨s1, rfl, .refl s1⟩
    have grows3 : Grows g s2 (leaveBlock g.toGraph s2 edge.cfgTo) := by
      unfold leaveBlock
      split
      · rename_i only single
        exact addCfgEdges_grows edge.cfgTo (single ▸ List.Subset.refl _)
      · exact .refl s2
    have grows := (grows1.trans grows2).trans grows3
    have flaggedValid :
        Valid g { s with cfgWorkList := edges, flagged := edge.cfgId :: s.flagged } :=
      ⟨dropped.uses, dropped.edges⟩
    refine ⟨leaveBlock g.toGraph s2 edge.cfgTo, ?_, ?_, .inl ?_⟩
    · rw [phis]
      simp only [Option.bind_eq_bind, Option.bind_some, visits]
    · exact flaggedValid.grow grows
    · rw [grows.flagged]
      exact unflagged_lt inside fresh

/-- A turn over a use writes the value of an assignment, or changes no cell. -/
theorem use_turn (valid : Valid g s) {bb : Nat} {luk : TexprLookup}
    {uses : List (Nat × TexprLookup)} (idle : s.cfgWorkList = [])
    (work : s.ssaWorkList = (bb, luk) :: uses) :
    ∃ s' e, step M g.toGraph s = some s' ∧ Valid g s' ∧ s'.flagged = s.flagged ∧
      g.toGraph.getTexpr bb luk = some e ∧
      ((assigned e = none ∧ s'.cells = s.cells ∧ s'.ssaWorkList = uses ∧
          (M.conditional = false → s'.cfgWorkList = [])) ∨
        ∃ v e2, assigned e = some (v, e2) ∧
          s' = writeValue M g.toGraph { s with ssaWorkList := uses } v
            (valueAt M g.toGraph s bb e2)) := by
  obtain ⟨e, found⟩ := valid.uses (bb, luk) (work ▸ List.mem_cons_self)
  have dropped : Valid g { s with ssaWorkList := uses } :=
    ⟨fun use member => valid.uses use (work ▸ List.mem_cons_of_mem (bb, luk) member), valid.edges⟩
  obtain ⟨s', b, visits, grows⟩ := visitExpression_some (M := M)
    (s := { s with ssaWorkList := uses }) found (decide (luk = .luTerm))
  refine ⟨s', e, ?_, dropped.grow grows, grows.flagged, found, ?_⟩
  · unfold step
    rw [idle, work]
    simp only [Option.bind_eq_bind, found, Option.bind_some]
    rw [idle] at visits
    rw [visits]
    rfl
  · unfold visitExpression at visits
    cases assigns : assigned e with
    | some target =>
      obtain ⟨v, e2⟩ := target
      have fits (el : List Texpr) (phi : e2 = .tPhi el) :
          el.length = (g.bbIncoming bb).length :=
        g.phi_operands bb luk e v el found (phi ▸ assigns)
      rw [assigns] at visits
      simp only [visitAssignment_eq fits, Option.map_some] at visits
      cases visits
      exact .inr ⟨v, e2, rfl, rfl⟩
    | none =>
      rw [assigns] at visits
      dsimp only at visits
      split at visits
      · rename_i conditional
        cases visits
        refine .inl ⟨rfl, rfl, rfl, fun plain => ?_⟩
        rw [plain] at conditional
        cases conditional
      · cases visits
        exact .inl ⟨rfl, rfl, rfl, fun _ => idle⟩

/-- The variable that the next turn writes to, and the value it gets. -/
def pendingWrite (M : DataFlowApi T) (g : Graph) (s : State T) : Option (SsaVar × T) :=
  match s.cfgWorkList, s.ssaWorkList with
  | [], (bb, luk) :: _ =>
    ((g.getTexpr bb luk).bind assigned).bind fun target =>
      (valueAt M g s bb target.2).map fun e => (target.1, e)
  | _, _ => none

/-- One turn of a run: over an edge, over a use that writes nothing, or over one that does. -/
inductive Turn (M : DataFlowApi T) (g : SsaGraph) (s s' : State T) : Prop where
  | flag (fewer : unflagged g s'.flagged < unflagged g s.flagged)
  | drop (flagged : s'.flagged = s.flagged) (cells : s'.cells = s.cells)
      (uses : s'.ssaWorkList = s.ssaWorkList)
      (edges : s'.cfgWorkList.length < s.cfgWorkList.length)
  | look (flagged : s'.flagged = s.flagged) (cells : s'.cells = s.cells)
      (uses : s'.ssaWorkList.length < s.ssaWorkList.length)
  | write (v : SsaVar) (e : T) (pending : pendingWrite M g.toGraph s = some (v, e))
      (flagged : s'.flagged = s.flagged) (cells : s'.cells = setCell s.cells v.vId e)
      (uses : M.equals e (getCell M s.cells v.vId) = true →
        s'.ssaWorkList.length < s.ssaWorkList.length)

theorem step_turn (valid : Valid g s) (busy : ¬ Finished s) :
    ∃ s', step M g.toGraph s = some s' ∧ Valid g s' ∧ Turn M g s s' := by
  cases idle : s.cfgWorkList with
  | cons edge edges =>
    obtain ⟨s', turn, valid', fewer | same⟩ := edge_turn (M := M) valid idle
    · exact ⟨s', turn, valid', .flag fewer⟩
    · refine ⟨s', turn, valid', .drop ?_ ?_ ?_ ?_⟩
      · rw [same]
      · rw [same]
      · rw [same]
      · rw [same, idle]
        exact Nat.lt_succ_self _
  | nil =>
    cases work : s.ssaWorkList with
    | nil => exact absurd ⟨idle, work⟩ busy
    | cons use uses =>
      obtain ⟨bb, luk⟩ := use
      obtain ⟨s', e, turn, valid', flagged, found, reads | writes⟩ :=
        use_turn (M := M) valid idle work
      · obtain ⟨_, cells, rest, _⟩ := reads
        refine ⟨s', turn, valid', .look flagged cells ?_⟩
        rw [rest, work]
        exact Nat.lt_succ_self _
      · obtain ⟨v, e2, assigns, same⟩ := writes
        refine ⟨s', turn, valid', ?_⟩
        have pending : pendingWrite M g.toGraph s =
            (valueAt M g.toGraph s bb e2).map fun e => (v, e) := by
          unfold pendingWrite
          rw [idle, work]
          dsimp only
          rw [found, Option.bind_some, assigns, Option.bind_some]
        cases gives : valueAt M g.toGraph s bb e2 with
        | none =>
          rw [gives] at same
          refine .look flagged (by rw [same]; rfl) ?_
          rw [same, work]
          exact Nat.lt_succ_self _
        | some value =>
          rw [gives] at same
          refine .write v value (by rw [pending, gives]; rfl) flagged (by rw [same]; rfl) ?_
          intro equal
          rw [same, work]
          simp [writeValue, setLatticeCell, equal]

/-- The run ends if what its writes change counts down: first a part that flags and cells
decide, then one that the cells decide. -/
theorem ends_of_writes (valid : Valid g s) (high : List Nat → List (Nat × T) → Nat)
    (low : List (Nat × T) → Nat)
    (writes : ∀ m u v e, after (step M g.toGraph) s m = some u → Valid g u →
      pendingWrite M g.toGraph u = some (v, e) →
      (M.equals e (getCell M u.cells v.vId) = true ∧
          high u.flagged (setCell u.cells v.vId e) = high u.flagged u.cells ∧
          low (setCell u.cells v.vId e) = low u.cells) ∨
        high u.flagged (setCell u.cells v.vId e) < high u.flagged u.cells ∨
        (high u.flagged (setCell u.cells v.vId e) = high u.flagged u.cells ∧
          low (setCell u.cells v.vId e) < low u.cells)) :
    Ends (step M g.toGraph) Finished s := by
  let weight (u : State T) := measure (unflagged g u.flagged) (high u.flagged u.cells)
    (low u.cells) u.ssaWorkList.length u.cfgWorkList.length
  refine ends_of_descent measure_wf weight
    (fun u => Valid g u ∧ ∃ m, after (step M g.toGraph) s m = some u) ?_ s ⟨valid, 0, rfl⟩
  intro u reached busy
  obtain ⟨valid, m, reached⟩ := reached
  obtain ⟨u', turn, valid', kind⟩ := step_turn (M := M) valid busy
  refine ⟨u', turn, ⟨valid', m + 1, by rw [after, reached, Option.bind_some, turn]⟩, ?_⟩
  cases kind with
  | flag fewer => exact lt_first fewer
  | drop flagged cells uses edges =>
    exact lt_fifth (by rw [flagged]) (by rw [flagged, cells]) (by rw [cells]) (by rw [uses]) edges
  | look flagged cells uses =>
    exact lt_fourth (by rw [flagged]) (by rw [flagged, cells]) (by rw [cells]) uses
  | write v e pending flagged cells uses =>
    obtain ⟨equal, high_eq, low_eq⟩ | fewer | ⟨high_eq, fewer⟩ :=
      writes m u v e reached valid pending
    · exact lt_fourth (by rw [flagged]) (by rw [flagged, cells, high_eq]) (by rw [cells, low_eq])
        (uses equal)
    · exact lt_second (by rw [flagged]) (by rw [flagged, cells]; exact fewer)
    · exact lt_third (by rw [flagged]) (by rw [flagged, cells, high_eq]) (by rw [cells]; exact fewer)

end Turns

end Haxe.Source.Optimization.DataFlow
