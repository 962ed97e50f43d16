import Haxe.Source.Optimization.DataFlowRuns

/-!
# What ends a run of the solver

With copies, the value of an expression depends on the flags alone, so a cell that was written
keeps its value until another edge is flagged. With constants it depends on the cells as well,
and the run ends when its writes only lower them.
-/

namespace Haxe.Source.Optimization.DataFlow

open Theory.Worklist

namespace ConstPropagation

mutual

/-- The constants and constructors in a value. -/
def size : Lattice → Nat
  | .bottom => 0
  | .top => 2
  | .enumValue _ tl => sizeAll tl + 1
  | _ => 1

def sizeAll : List Lattice → Nat
  | [] => 0
  | l :: tl => size l + sizeAll tl

end

mutual

theorem size_of_equals (l1 l2 : Lattice) (same : equals l1 l2 = true) : size l1 = size l2 := by
  cases l1 <;> cases l2 <;> first | rfl | (unfold equals at same; cases same) | skip
  rename_i i1 tl1 i2 tl2
  rw [equals, Bool.and_eq_true] at same
  rw [size, size, sizeAll_of_equals tl1 tl2 same.2]

theorem sizeAll_of_equals (tl1 tl2 : List Lattice) (same : equalsAll tl1 tl2 = true) :
    sizeAll tl1 = sizeAll tl2 := by
  match tl1, tl2 with
  | [], [] => rfl
  | [], _ :: _ => simp [equalsAll] at same
  | _ :: _, [] => simp [equalsAll] at same
  | l1 :: tl1, l2 :: tl2 =>
    rw [equalsAll, Bool.and_eq_true] at same
    rw [sizeAll, sizeAll, size_of_equals l1 l2 same.1, sizeAll_of_equals tl1 tl2 same.2]

end

theorem isTop_of_equals {l1 l2 : Lattice} (same : equals l1 l2 = true) : isTop l1 = isTop l2 := by
  cases l1 <;> cases l2 <;> first | rfl | (unfold equals at same; cases same)

/-- A value takes the place of none, or a smaller one that of a greater one. -/
def falls (old new : Lattice) : Bool :=
  !isTop new && (isTop old || size new < size old)

/-- The next turn writes a value to a cell that is neither the one in it nor below it. -/
def lifts (ctx : Context) (g : Graph) (s : State Lattice) : Bool :=
  (pendingWrite (api ctx) g s).any fun write =>
    !equals write.2 (getCell (api ctx) s.cells write.1.vId) &&
      !falls (getCell (api ctx) s.cells write.1.vId) write.2

/-- How many variables have no value yet. -/
def tops (ctx : Context) (vars : List Nat) (cells : List (Nat × Lattice)) : Nat :=
  total (fun v => if isTop (getCell (api ctx) cells v) then 1 else 0) vars

/-- The size of the values there are. -/
def sizes (ctx : Context) (vars : List Nat) (cells : List (Nat × Lattice)) : Nat :=
  total (fun v => size (getCell (api ctx) cells v)) vars

variable {ctx : Context} {vars : List Nat} {cells : List (Nat × Lattice)} {v : Nat}
  {new : Lattice}

theorem tops_same (same : isTop new = isTop (getCell (api ctx) cells v)) :
    tops ctx vars (setCell cells v new) = tops ctx vars cells := by
  unfold tops
  apply total_congr
  intro u _
  rw [getCell_setCell]
  split
  · rename_i here
    rw [same, here]
  · rfl

theorem sizes_same (same : size new = size (getCell (api ctx) cells v)) :
    sizes ctx vars (setCell cells v new) = sizes ctx vars cells := by
  unfold sizes
  apply total_congr
  intro u _
  rw [getCell_setCell]
  split
  · rename_i here
    rw [same, here]
  · rfl

theorem tops_lt (member : v ∈ vars) (top : isTop (getCell (api ctx) cells v) = true)
    (value : isTop new = false) : tops ctx vars (setCell cells v new) < tops ctx vars cells := by
  apply total_lt member
  · rw [getCell_setCell, if_pos rfl, value, top]
    decide
  · intro u other
    rw [getCell_setCell, if_neg other]

theorem sizes_lt (member : v ∈ vars) (less : size new < size (getCell (api ctx) cells v)) :
    sizes ctx vars (setCell cells v new) < sizes ctx vars cells := by
  apply total_lt member
  · rw [getCell_setCell, if_pos rfl]
    exact less
  · intro u other
    rw [getCell_setCell, if_neg other]

end ConstPropagation

section Pending

variable {T : Type} {M : DataFlowApi T} {g : SsaGraph} {s : State T} {v : SsaVar} {e : T}

/-- A pending write is that of an assignment of the graph. -/
theorem pendingWrite_from (pending : pendingWrite M g.toGraph s = some (v, e)) :
    ∃ bb luk e1 e2, g.toGraph.getTexpr bb luk = some e1 ∧ assigned e1 = some (v, e2) ∧
      valueAt M g.toGraph s bb e2 = some e := by
  unfold pendingWrite at pending
  split at pending
  · rename_i bb luk uses _ _
    obtain ⟨target, found, gives⟩ := Option.bind_eq_some_iff.mp pending
    obtain ⟨e1, there, assigns⟩ := Option.bind_eq_some_iff.mp found
    obtain ⟨value, gives, same⟩ := Option.map_eq_some_iff.mp gives
    cases same
    exact ⟨bb, luk, e1, target.2, there, assigns, gives⟩
  · cases pending

theorem pendingWrite_mem (pending : pendingWrite M g.toGraph s = some (v, e)) :
    v.vId ∈ g.vars := by
  obtain ⟨bb, luk, e1, e2, found, assigns, _⟩ := pendingWrite_from pending
  exact g.assigned_mem bb luk e1 v e2 found assigns

end Pending

namespace ConstPropagation

variable {ctx : Context} {g : SsaGraph} {s : State Lattice}

/-- A run without a turn that lifts a cell ends. -/
theorem ends_of_steady (valid : Valid g s)
    (steady : ∀ m u, after (step (api ctx) g.toGraph) s m = some u →
      lifts ctx g.toGraph u = false) :
    Ends (step (api ctx) g.toGraph) Finished s := by
  apply ends_of_writes valid (fun _ cells => tops ctx g.vars cells) (sizes ctx g.vars)
  intro m u v e reached _ pending
  have member := pendingWrite_mem pending
  have settled := steady m u reached
  unfold lifts at settled
  rw [pending, Option.any_some] at settled
  by_cases same : equals e (getCell (api ctx) u.cells v.vId) = true
  · exact .inl ⟨same, tops_same (isTop_of_equals same), sizes_same (size_of_equals _ _ same)⟩
  · have falling : falls (getCell (api ctx) u.cells v.vId) e = true := by
      simpa [same] using settled
    rw [falls, Bool.and_eq_true, Bool.or_eq_true, decide_eq_true_eq, Bool.not_eq_true']
      at falling
    obtain ⟨value, top | less⟩ := falling
    · exact .inr (.inl (tops_lt member top value))
    · by_cases top : isTop (getCell (api ctx) u.cells v.vId) = true
      · exact .inr (.inl (tops_lt member top value))
      · have both : isTop e = isTop (getCell (api ctx) u.cells v.vId) :=
          value.trans (Bool.not_eq_true _ ▸ top).symm
        exact .inr (.inr ⟨tops_same both, sizes_lt member less⟩)

end ConstPropagation

namespace CopyPropagation

variable {g : SsaGraph} {flagged : List Nat} {cells : List (Nat × Lattice)}

/-- The value an assignment has under some flags. -/
def flagValue (g : Graph) (flagged : List Nat) (bb : Nat) (e : Texpr) : Option Lattice :=
  valueAt api g ⟨flagged, [], [], []⟩ bb e

theorem valueAt_eq (s : State Lattice) (bb : Nat) (e : Texpr) :
    valueAt api g.toGraph s bb e = flagValue g.toGraph s.flagged bb e := by
  cases e <;> rfl

/-- The cell of a variable holds what its assignment gives under these flags. -/
def Settled (g : SsaGraph) (flagged : List Nat) (cells : List (Nat × Lattice)) (i : Nat) : Prop :=
  ∀ bb luk e v e2 value, g.toGraph.getTexpr bb luk = some e → assigned e = some (v, e2) →
    v.vId = i → flagValue g.toGraph flagged bb e2 = some value → getCell api cells i = value

open Classical in
/-- How many variables are not settled. -/
noncomputable def unsettled (g : SsaGraph) (flagged : List Nat) (cells : List (Nat × Lattice)) :
    Nat :=
  total (fun i => if Settled g flagged cells i then 0 else 1) g.vars

theorem settled_congr {cells' : List (Nat × Lattice)} {i : Nat}
    (same : getCell api cells' i = getCell api cells i) :
    Settled g flagged cells' i ↔ Settled g flagged cells i := by
  unfold Settled
  rw [same]

/-- What was written is settled, since no other expression assigns the variable. -/
theorem settled_of_write {bb : Nat} {luk : TexprLookup} {e e2 : Texpr} {v : SsaVar}
    {value : Lattice} (found : g.toGraph.getTexpr bb luk = some e)
    (assigns : assigned e = some (v, e2))
    (gives : flagValue g.toGraph flagged bb e2 = some value) :
    Settled g flagged (setCell cells v.vId value) v.vId := by
  intro bb' luk' e' v' e2' value' found' assigns' same gives'
  rw [getCell_setCell, if_pos rfl]
  obtain ⟨here, there⟩ :=
    g.assigned_once bb luk e v e2 bb' luk' e' v' e2' found assigns found' assigns' same.symm
  subst here there
  rw [found] at found'
  cases found'
  rw [assigns] at assigns'
  cases assigns'
  rw [gives] at gives'
  exact Option.some.inj gives'

open Classical in
/-- The run ends on every graph. -/
theorem ends {s : State Lattice} (valid : Valid g s) :
    Ends (step api g.toGraph) Finished s := by
  apply ends_of_writes valid (unsettled g) (fun _ => 0)
  intro m u v value reached _ pending
  obtain ⟨bb, luk, e, e2, found, assigns, gives⟩ := pendingWrite_from pending
  rw [valueAt_eq] at gives
  by_cases same : value = getCell api u.cells v.vId
  · refine .inl ⟨decide_eq_true same, ?_, rfl⟩
    unfold unsettled
    apply total_congr
    intro i _
    have cell : getCell api (setCell u.cells v.vId value) i = getCell api u.cells i := by
      rw [getCell_setCell]
      split
      · rename_i here
        rw [same, here]
      · rfl
    exact if_congr (settled_congr cell) rfl rfl
  · refine .inr (.inl ?_)
    apply total_lt (pendingWrite_mem pending)
    · have before : ¬ Settled g u.flagged u.cells v.vId := fun settled =>
        same (settled bb luk e v e2 value found assigns rfl gives).symm
      rw [if_pos (settled_of_write found assigns gives), if_neg before]
      decide
    · intro i other
      have cell : getCell api (setCell u.cells v.vId value) i = getCell api u.cells i := by
        rw [getCell_setCell, if_neg other]
      exact if_congr (settled_congr cell) rfl rfl

end CopyPropagation

end Haxe.Source.Optimization.DataFlow
