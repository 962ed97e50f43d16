import Haxe.Source.Core.Texpr

/-!
# Saving exception stacks

`insert_save_stacks` of `filters/exceptions.ml`: a call of `haxe.NativeStackTrace.saveStack` in
front of the bodies of marked catches.
-/

namespace Haxe.Source.Core.TExpr

/-- `Type.map_expr` -/
@[grind =] def mapChildren (f : TExpr → TExpr) (e : TExpr) : TExpr :=
  Id.run (e.mapExpr (m := Id) fun e' _ => pure (f e'))

theorem mapChildren_switch {f g : TExpr → TExpr} {cases : List (List TExpr × TExpr)} :
    (∀ el e2, (el, e2) ∈ cases → (∀ e ∈ el, f e = g e) ∧ f e2 = g e2) ↔
      ∀ e el e2, (el, e2) ∈ cases → e ∈ el ∨ e = e2 → f e = g e := by
  constructor
  · rintro alike e el e2 member (pattern | rfl)
    · exact (alike el e2 member).1 e pattern
    · exact (alike el e member).2
  · intro alike el e2 member
    exact ⟨fun e pattern => alike e el e2 member (.inl pattern),
      alike e2 el e2 member (.inr rfl)⟩

/-- Two functions give one expression exactly if they agree on the children. -/
theorem mapChildren_inj {e : TExpr} {f g : TExpr → TExpr} :
    e.mapChildren f = e.mapChildren g ↔ ∀ e' ∈ e.children, f e' = g e' := by
  cases e
  case tIf e e1 e2 => cases e2 <;> simp [mapChildren, mapExpr, children]
  case tSwitch e cases default =>
    cases default with
    | none => simp [mapChildren, mapExpr, children, mapChildren_switch]
    | some e2 =>
      simp [mapChildren, mapExpr, children, mapChildren_switch]
      grind
  case tVar v eo => cases eo <;> simp [mapChildren, mapExpr, children]
  case tReturn eo => cases eo <;> simp [mapChildren, mapExpr, children]
  case tObjectDecl fl =>
    simp [mapChildren, mapExpr, children]
    exact forall_comm
  case tTry e catches =>
    simp [mapChildren, mapExpr, children]
    exact fun _ => forall_comm
  all_goals simp [mapChildren, mapExpr, children]

theorem mapChildren_id (e : TExpr) : e.mapChildren id = e := by
  cases e
  case tIf e e1 e2 => cases e2 <;> simp [mapChildren, mapExpr]
  case tSwitch e cases default =>
    have same : cases.attach.map (fun c => (c.1.1, c.1.2)) = cases :=
      List.attach_map_subtype_val cases
    cases default <;> simp [mapChildren, mapExpr, same]
  case tVar v eo => cases eo <;> simp [mapChildren, mapExpr]
  case tReturn eo => cases eo <;> simp [mapChildren, mapExpr]
  case tObjectDecl fl =>
    have same : fl.attach.map (fun c => (c.1.1, c.1.2)) = fl := List.attach_map_subtype_val fl
    simp [mapChildren, mapExpr, same]
  case tTry e catches =>
    have same : catches.attach.map (fun c => (c.1.1, c.1.2)) = catches :=
      List.attach_map_subtype_val catches
    simp [mapChildren, mapExpr, same]
  all_goals simp [mapChildren, mapExpr]

theorem mapChildren_eq_self {e : TExpr} {f : TExpr → TExpr} :
    e.mapChildren f = e ↔ ∀ e' ∈ e.children, f e' = e' := by
  have same := mapChildren_inj (e := e) (f := f) (g := id)
  rw [mapChildren_id] at same
  exact same

theorem mapChildren_tTry (f : TExpr → TExpr) (e : TExpr) (catches : List (TVar × TExpr)) :
    (tTry e catches).mapChildren f = tTry (f e) (catches.map fun c => (c.1, f c.2)) := by
  have visited : catches.attach.map (fun c => (c.1.1, f c.1.2)) =
      catches.map fun c => (c.1, f c.2) :=
    List.attach_map_val (f := fun c : TVar × TExpr => (c.1, f c.2))
  simp [mapChildren, mapExpr]
  exact visited

theorem mapChildren_tBlock (f : TExpr → TExpr) (el : List TExpr) :
    (tBlock el).mapChildren f = tBlock (el.map f) := by
  simp [mapChildren, mapExpr]

end Haxe.Source.Core.TExpr

namespace Haxe.Source.Exceptions

open Core TExpr

/-- `Meta.has Meta.NeedsExceptionStack v.v_meta` -/
def needsExceptionStack (v : TVar) : Bool := v.vMeta.has (.custom ":needsExceptionStack")

@[grind =] def containsInsertionPoints (e : TExpr) : Bool :=
  match e with
  | tTry e catches =>
    (catches.any fun c => needsExceptionStack c.1) || containsInsertionPoints e
      || catches.attach.any fun c => containsInsertionPoints c.1.2
  | e => e.children.attach.any fun e' => containsInsertionPoints e'.1
termination_by sizeOf e
decreasing_by
  · exact sizeOf_children List.mem_cons_self
  · exact sizeOf_catch c.2
  · exact sizeOf_children e'.2

/-- A static call of `saveStack` on the variable of a catch. -/
def saveExceptionStack (nativeStackTraceCls : Path) (catchVar : TVar) : TExpr :=
  tCall (tField (tTypeExpr (.tClassDecl nativeStackTraceCls))
    (.fStatic nativeStackTraceCls "saveStack")) [tLocal catchVar]

def withSaveStack (nativeStackTraceCls : Path) (v : TVar) (body : TExpr) : TExpr :=
  match body with
  | tBlock exprs => tBlock (saveExceptionStack nativeStackTraceCls v :: exprs)
  | body => tBlock [saveExceptionStack nativeStackTraceCls v, body]

/-- What `run` makes of a catch: its body is not visited. -/
def runCatch (nativeStackTraceCls : Path) (catch_ : TVar × TExpr) : TVar × TExpr :=
  if needsExceptionStack catch_.1 then
    (catch_.1, withSaveStack nativeStackTraceCls catch_.1 catch_.2)
  else catch_

@[grind =] def run (nativeStackTraceCls : Path) (e : TExpr) : TExpr :=
  match e with
  | tTry e1 catches =>
    -- the body itself is only mapped: if it is a try, its catches stay as they are
    tTry (Id.run (e1.mapExpr (m := Id) fun e' _ => pure (run nativeStackTraceCls e')))
      (catches.map (runCatch nativeStackTraceCls))
  | e => Id.run (e.mapExpr (m := Id) fun e' _ => pure (run nativeStackTraceCls e'))
termination_by sizeOf e
decreasing_by
  · exact Nat.lt_trans (sizeOf_children ‹_›) (sizeOf_children List.mem_cons_self)
  · exact sizeOf_children ‹_›

/-- `insert_save_stacks`, with what `has_feature` says of the exception stack. -/
def insertSaveStacks (hasFeature : Bool) (nativeStackTraceCls : Path) (e : TExpr) : TExpr :=
  if hasFeature then
    if containsInsertionPoints e then run nativeStackTraceCls e else e
  else e

/-! ## One step of the traversals -/

/-- A try expression. -/
def IsTry (e : TExpr) : Prop := ∃ e1 catches, e = tTry e1 catches

theorem run_tTry (cls : Path) (e1 : TExpr) (catches : List (TVar × TExpr)) :
    run cls (tTry e1 catches) = tTry (e1.mapChildren (run cls)) (catches.map (runCatch cls)) := by
  rw [run]
  rfl

theorem run_other (cls : Path) {e : TExpr} (other : ¬IsTry e) :
    run cls e = e.mapChildren (run cls) := by
  rw [run]
  · rfl
  · exact fun e1 catches same => other ⟨e1, catches, same⟩

theorem containsInsertionPoints_tTry (e1 : TExpr) (catches : List (TVar × TExpr)) :
    containsInsertionPoints (tTry e1 catches) = false ↔
      containsInsertionPoints e1 = false ∧ ∀ c ∈ catches,
        needsExceptionStack c.1 = false ∧ containsInsertionPoints c.2 = false := by
  rw [containsInsertionPoints]
  simp only [Bool.or_eq_false_iff, List.any_eq_false, List.mem_attach, true_imp_iff,
    Subtype.forall, Bool.not_eq_true, forall_and]
  rw [and_assoc, and_left_comm]

theorem containsInsertionPoints_other {e : TExpr} (other : ¬IsTry e) :
    containsInsertionPoints e = false ↔
      ∀ e' ∈ e.children, containsInsertionPoints e' = false := by
  rw [containsInsertionPoints]
  · simp
  · exact fun e1 catches same => other ⟨e1, catches, same⟩

/-! ## Blocks -/

/-- How many expressions there are in a block. -/
@[grind =] def blockLength : TExpr → Option Nat
  | tBlock el => some el.length
  | _ => none

theorem blockLength_mapChildren (f : TExpr → TExpr) (e : TExpr) :
    blockLength (e.mapChildren f) = blockLength e := by
  cases e
  case tIf e e1 e2 => cases e2 <;> rfl
  case tSwitch e cases default => cases default <;> rfl
  case tVar v eo => cases eo <;> rfl
  case tReturn eo => cases eo <;> rfl
  case tBlock el => rw [mapChildren_tBlock, blockLength, blockLength, List.length_map]
  all_goals rfl

theorem blockLength_withSaveStack (cls : Path) (v : TVar) (body : TExpr) :
    blockLength (withSaveStack cls v body) = some ((blockLength body).getD 1 + 1) := by
  cases body <;> rfl

theorem block_of_length {e : TExpr} {n : Nat} (length : blockLength e = some n) :
    ∃ el, e = tBlock el := by
  unfold blockLength at length
  split at length
  · exact ⟨_, rfl⟩
  · cases length

theorem withSaveStack_of_other {cls : Path} {v : TVar} {body : TExpr}
    (other : blockLength body = none) :
    withSaveStack cls v body = tBlock [saveExceptionStack cls v, body] := by
  unfold withSaveStack
  split
  · cases other
  · rfl

/-- Of bodies that are both blocks or both not, the call leaves all. -/
theorem withSaveStack_inj {cls : Path} {v : TVar} {body body' : TExpr}
    (length : blockLength body = blockLength body')
    (same : withSaveStack cls v body = withSaveStack cls v body') : body = body' := by
  cases own : blockLength body with
  | none =>
    rw [withSaveStack_of_other own, withSaveStack_of_other (length ▸ own)] at same
    cases same
    rfl
  | some n =>
    obtain ⟨el, rfl⟩ := block_of_length own
    obtain ⟨el', rfl⟩ := block_of_length (length.symm.trans own)
    cases same
    rfl

/-- With the call a block is longer. -/
theorem ne_withSaveStack {cls : Path} {v : TVar} {body body' : TExpr}
    (length : blockLength body = blockLength body') : body ≠ withSaveStack cls v body' := by
  intro same
  rw [same, blockLength_withSaveStack] at length
  cases own : blockLength body' with
  | none => rw [own] at length; cases length
  | some n =>
    rw [own] at length
    exact absurd (Option.some.inj length) (Nat.succ_ne_self n)

end Haxe.Source.Exceptions
