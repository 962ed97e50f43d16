import Haxe.Source.Filters.Exceptions
import Haxe.Source.Filters.RenameNames

/-!
# Which catches save the exception stack

The bodies of catches are not visited, and neither are the catches of a try that is itself the
body of a try. All marked catches get their call exactly if none is in such a place.
-/

namespace Haxe.Source.Exceptions

open Core TExpr

section

variable (cls : Path)

/-- The body of a catch, with the call if its variable is marked. -/
@[grind =] def savedBody (v : TVar) (body : TExpr) : TExpr :=
  if needsExceptionStack v then withSaveStack cls v body else body

/-- The expression with a call in front of the body of every marked catch, and no other change. -/
@[grind =] def saved (e : TExpr) : TExpr :=
  match e with
  | tTry e1 catches =>
    tTry (saved e1) (catches.attach.map fun c => (c.1.1, savedBody cls c.1.1 (saved c.1.2)))
  | e => Id.run (e.mapExpr (m := Id) fun e' _ => pure (saved e'))
termination_by sizeOf e
decreasing_by
  · exact sizeOf_children List.mem_cons_self
  · exact sizeOf_catch c.2
  · exact sizeOf_children ‹_›

end

/-- No marked catch is missed: there is none in the body of a catch, and the body of a visited
try is not a try with one. -/
@[grind =] def reachesAll (isBody : Bool) (e : TExpr) : Bool :=
  match e with
  | tTry e1 catches =>
    if isBody then
      reachesAll false e1 &&
        catches.attach.all fun c => !needsExceptionStack c.1.1 && reachesAll false c.1.2
    else reachesAll true e1 && catches.all fun c => !containsInsertionPoints c.2
  | e => e.children.attach.all fun e' => reachesAll false e'.1
termination_by sizeOf e
decreasing_by
  · exact sizeOf_children List.mem_cons_self
  · exact sizeOf_catch c.2
  · exact sizeOf_children List.mem_cons_self
  · exact sizeOf_children e'.2

theorem saved_tTry (cls : Path) (e1 : TExpr) (catches : List (TVar × TExpr)) :
    saved cls (tTry e1 catches) =
      tTry (saved cls e1) (catches.map fun c => (c.1, savedBody cls c.1 (saved cls c.2))) := by
  rw [saved]
  exact congrArg _ (List.attach_map_val
    (f := fun c : TVar × TExpr => (c.1, savedBody cls c.1 (saved cls c.2))))

theorem saved_other (cls : Path) {e : TExpr} (other : ¬IsTry e) :
    saved cls e = e.mapChildren (saved cls) := by
  rw [saved]
  · rfl
  · exact fun e1 catches same => other ⟨e1, catches, same⟩

theorem reachesAll_tTry (e1 : TExpr) (catches : List (TVar × TExpr)) :
    reachesAll false (tTry e1 catches) = true ↔
      reachesAll true e1 = true ∧ ∀ c ∈ catches, containsInsertionPoints c.2 = false := by
  rw [reachesAll]
  simp

theorem reachesAll_body (e1 : TExpr) (catches : List (TVar × TExpr)) :
    reachesAll true (tTry e1 catches) = true ↔ reachesAll false e1 = true ∧
      ∀ c ∈ catches, needsExceptionStack c.1 = false ∧ reachesAll false c.2 = true := by
  rw [reachesAll]
  simp

theorem reachesAll_other (isBody : Bool) {e : TExpr} (other : ¬IsTry e) :
    reachesAll isBody e = true ↔ ∀ e' ∈ e.children, reachesAll false e' = true := by
  rw [reachesAll]
  · simp
  · exact fun e1 catches same => other ⟨e1, catches, same⟩

/-! ## Blocks stay blocks -/

theorem blockLength_run (cls : Path) (e : TExpr) : blockLength (run cls e) = blockLength e := by
  by_cases isTry : IsTry e
  · obtain ⟨e1, catches, rfl⟩ := isTry
    rw [run_tTry]
    rfl
  · rw [run_other cls isTry, blockLength_mapChildren]

theorem blockLength_saved (cls : Path) (e : TExpr) :
    blockLength (saved cls e) = blockLength e := by
  by_cases isTry : IsTry e
  · obtain ⟨e1, catches, rfl⟩ := isTry
    rw [saved_tTry]
    rfl
  · rw [saved_other cls isTry, blockLength_mapChildren]

theorem tTry_inj {e1 e1' : TExpr} {catches : List (TVar × TExpr)} {f g : TVar × TExpr → TExpr} :
    tTry e1 (catches.map fun c => (c.1, f c)) = tTry e1' (catches.map fun c => (c.1, g c)) ↔
      e1 = e1' ∧ ∀ c ∈ catches, f c = g c := by
  rw [tTry.injEq, List.map_inj_left]
  simp

/-! ## The calls that are inserted -/

/-- Nothing is inserted exactly if there is no marked catch. -/
theorem saved_eq_self (cls : Path) (e : TExpr) :
    saved cls e = e ↔ containsInsertionPoints e = false := by
  induction e using childInduction with
  | step e ih =>
    by_cases isTry : IsTry e
    · obtain ⟨e1, catches, rfl⟩ := isTry
      rw [saved_tTry, containsInsertionPoints_tTry]
      have bodies : tTry e1 catches = tTry e1 (catches.map fun c => (c.1, c.2)) := by
        rw [show (fun c : TVar × TExpr => (c.1, c.2)) = id from rfl, List.map_id]
      rw [bodies, tTry_inj]
      refine and_congr (ih e1 List.mem_cons_self) (forall₂_congr fun c member => ?_)
      have body := ih c.2 (mem_catch member)
      unfold savedBody
      split
      · rename_i marked
        have differ : withSaveStack cls c.1 (saved cls c.2) ≠ c.2 :=
          (ne_withSaveStack (blockLength_saved cls c.2).symm).symm
        exact iff_of_false differ fun both => Bool.false_ne_true (both.1.symm.trans marked)
      · rename_i unmarked
        rw [body, Bool.not_eq_true] at *
        simp [unmarked]
    · rw [saved_other cls isTry, containsInsertionPoints_other isTry, mapChildren_eq_self]
      exact forall₂_congr ih

/-- The body of a try and an expression anywhere else. -/
theorem run_iff (cls : Path) (e : TExpr) :
    (e.mapChildren (run cls) = saved cls e ↔ reachesAll true e = true) ∧
      (run cls e = saved cls e ↔ reachesAll false e = true) := by
  induction e using childInduction with
  | step e ih =>
    by_cases isTry : IsTry e
    · obtain ⟨e1, catches, rfl⟩ := isTry
      have protected_ := ih e1 List.mem_cons_self
      constructor
      · -- its catches are mapped, and no call is inserted
        rw [mapChildren_tTry, saved_tTry, reachesAll_body, tTry_inj]
        refine and_congr protected_.2 (forall₂_congr fun c member => ?_)
        have body := (ih c.2 (mem_catch member)).2
        unfold savedBody
        split
        · rename_i marked
          have differ : run cls c.2 ≠ withSaveStack cls c.1 (saved cls c.2) :=
            ne_withSaveStack ((blockLength_run cls c.2).trans (blockLength_saved cls c.2).symm)
          exact iff_of_false differ fun both => Bool.false_ne_true (both.1.symm.trans marked)
        · rename_i unmarked
          rw [body]
          simp [unmarked]
      · -- its catches get their calls, and their bodies stay as they are
        have catches_ : catches.map (runCatch cls) =
            catches.map fun c => (c.1, savedBody cls c.1 c.2) := by
          refine List.map_congr_left fun c _ => ?_
          unfold runCatch savedBody
          split <;> rfl
        rw [run_tTry, saved_tTry, reachesAll_tTry, catches_, tTry_inj]
        refine and_congr protected_.1 (forall₂_congr fun c member => ?_)
        rw [← saved_eq_self cls]
        unfold savedBody
        split
        · have length := (blockLength_saved cls c.2).symm
          exact ⟨fun same => (withSaveStack_inj length same).symm,
            fun same => congrArg (withSaveStack cls c.1) same.symm⟩
        · exact eq_comm
    · rw [run_other cls isTry, saved_other cls isTry, reachesAll_other true isTry,
        reachesAll_other false isTry, mapChildren_inj]
      have children : (∀ e' ∈ e.children, run cls e' = saved cls e') ↔
          ∀ e' ∈ e.children, reachesAll false e' = true :=
        forall₂_congr fun e' member => (ih e' member).2
      exact ⟨children, children⟩

/-- Without marked catches none is missed. -/
theorem reachesAll_of_clean {e : TExpr} (clean : containsInsertionPoints e = false)
    (isBody : Bool) : reachesAll isBody e = true := by
  induction e using childInduction generalizing isBody with
  | step e ih =>
    by_cases isTry : IsTry e
    · obtain ⟨e1, catches, rfl⟩ := isTry
      obtain ⟨body, handlers⟩ := (containsInsertionPoints_tTry e1 catches).mp clean
      have protected_ := ih e1 List.mem_cons_self body
      cases isBody with
      | false =>
        exact (reachesAll_tTry e1 catches).mpr
          ⟨protected_ true, fun c member => (handlers c member).2⟩
      | true =>
        refine (reachesAll_body e1 catches).mpr ⟨protected_ false, fun c member => ?_⟩
        obtain ⟨unmarked, inside⟩ := handlers c member
        exact ⟨unmarked, ih c.2 (mem_catch member) inside false⟩
    · have inside := (containsInsertionPoints_other isTry).mp clean
      exact (reachesAll_other isBody isTry).mpr fun e' member =>
        ih e' member (inside e' member) false

/-- Every marked catch saves the stack, and nothing else is changed, exactly if none is missed. -/
theorem insertSaveStacks_iff (cls : Path) (e : TExpr) :
    insertSaveStacks true cls e = saved cls e ↔ reachesAll false e = true := by
  unfold insertSaveStacks
  rw [if_pos rfl]
  split
  · exact (run_iff cls e).2
  · rename_i none
    have clean := Bool.eq_false_iff.mpr none
    exact iff_of_true ((saved_eq_self cls e).mpr clean).symm (reachesAll_of_clean clean false)

/-- The variable of a catch, marked or not. -/
def catchVar (metas : Metadata) : TVar :=
  ⟨0, "e", .tDynamic, .vUser .catchVariable, metas, false⟩

/-- A marked catch in the body of another one. -/
def nestedHandler : TExpr :=
  tTry (tBlock []) [(catchVar [],
    tTry (tBlock []) [(catchVar [⟨.custom ":needsExceptionStack", [], Typing.nullPos⟩], tBlock [])])]

/-- The inner catch gets no call. -/
theorem nested_handler_missed :
    insertSaveStacks true (["haxe"], "NativeStackTrace") nestedHandler ≠
      saved (["haxe"], "NativeStackTrace") nestedHandler := by
  have marked : containsInsertionPoints nestedHandler = true := by
    simp [nestedHandler, containsInsertionPoints, needsExceptionStack, catchVar, Metadata.has,
      children]
  have missed : reachesAll false nestedHandler = false := by
    simp [nestedHandler, reachesAll, containsInsertionPoints, needsExceptionStack, catchVar,
      Metadata.has, children]
  unfold insertSaveStacks
  rw [if_pos rfl, if_pos marked]
  intro same
  exact Bool.false_ne_true (missed.symm.trans ((run_iff _ _).2.mp same))

end Haxe.Source.Exceptions

/-!
## Renamed local variables

With block scoping no renamed variable is captured: at each reference its new name still
denotes it, and another variable in scope there has that name only if it was declared
before and is hidden. The scopes of the target language may be any that are at least as
fine as those of the pass.
-/

namespace Haxe.Guarantees.RenamedVariables

open Source.Core Source.Context Source.Filters.RenameVars
open Theory

/-- A reference to `v` where the variables of `scope` are visible, latest first. -/
structure Unambiguous (names : Names) (scope : List TVar) (v : TVar) : Prop where
  denotes : Trace.resolve (vName names) scope (vName names v) = some v
  hides : ∀ w ∈ scope, w ≠ v → vName names w = vName names v → [v, w].Sublist scope

/-- A field that only some flags change. -/
theorem init_foldl {flags : List VarScopingFlag}
    {step : RenameContext → VarScopingFlag → RenameContext} {α : Type} (field : RenameContext → α)
    (bad : VarScopingFlag → Prop) (keeps : ∀ ri flag, ¬ bad flag → field (step ri flag) = field ri)
    (none : ∀ flag ∈ flags, ¬ bad flag) (start : RenameContext) :
    field (flags.foldl step start) = field start := by
  induction flags generalizing start with
  | nil => rfl
  | cons flag flags ih =>
    rw [List.foldl_cons, ih fun f member => none f (List.mem_cons_of_mem _ member)]
    exact keeps start flag (none flag (List.mem_cons_self ..))

/-- The context of a platform with block scoping. -/
theorem init_blockScoped {com : Com} (block : (getScoping com).vsScope = .blockScope)
    (types : TypeNames) (current : String) :
    BlockScoped (init (getScoping com) types current) := by
  obtain ⟨notHoisting, notCatches⟩ := getScoping_block block
  refine ⟨?_, ?_, ?_⟩
  · rw [← block]
    unfold init
    refine init_foldl RenameContext.rcScope (fun _ => False) ?_ (by simp) _
    intro ri flag _
    cases flag <;> rfl
  · unfold init
    refine init_foldl RenameContext.rcHoisting (· = .varHoisting) ?_ ?_ _
    · intro ri flag other
      cases flag <;> first | rfl | exact absurd rfl other
    · rintro flag member rfl
      exact notHoisting member
  · unfold init
    refine init_foldl RenameContext.rcNoCatchVarShadowing (· = .noCatchVarShadowing) ?_ ?_ _
    · intro ri flag other
      cases flag <;> first | rfl | exact absurd rfl other
    · rintro flag member rfl
      exact notCatches member

theorem pair_sublist {α : Type} {l : List α} {a b : α} (ha : a ∈ l) (hb : b ∈ l) (h : a ≠ b) :
    [a, b].Sublist l ∨ [b, a].Sublist l := by
  induction l with
  | nil => cases ha
  | cons c l ih =>
    rcases List.mem_cons.mp ha with rfl | inA
    · have below : b ∈ l := (List.mem_cons.mp hb).resolve_left (Ne.symm h)
      exact Or.inl ((List.singleton_sublist.mpr below).cons_cons a)
    · rcases List.mem_cons.mp hb with rfl | inB
      · exact Or.inr ((List.singleton_sublist.mpr inA).cons_cons b)
      · exact (ih inA inB).imp (List.Sublist.cons c) (List.Sublist.cons c)

/-- What the names have to satisfy at one reference. -/
theorem unambiguous_of_apart {names : Names} {scope : List TVar} {v : TVar} (visible : v ∈ scope)
    (apart : ∀ w, [w, v].Sublist scope → vName names w ≠ vName names v) :
    Unambiguous names scope v where
  denotes := Trace.resolve_eq visible fun w order _ => apart w order
  hides w member other same := by
    rcases pair_sublist member visible other with later | earlier
    · exact absurd same (apart w later)
    · exact earlier

/-- A run in which every reference is in scope names all variables, and makes every
recorded pair different. -/
theorem run_spec {rc : RenameContext} (h : BlockScoped rc) {e : TExpr}
    (once : DeclaredOnce (trace .block e) [])
    (wellScoped : WellScoped (opens rc) (trace .block e) []) :
    ∃ names, run rc e = some names ∧
      (∀ v ∈ (trace .block e).declared, vName names v ∉ rc.rcReserved) ∧
      ∀ r ∈ (trace .block e).references (opens rc) [], ∀ w, [w, r.2].Sublist r.1 →
        vName names w ≠ vName names r.2 := by
  obtain ⟨stack', collected, collects⟩ :=
    traversable rc (trace .block e) [createScope] (by simp) once wellScoped
  have single : stack'.length = 1 := by
    have same := congrArg List.length collects.tail
    have positive := List.length_pos_of_ne_nil collects.nonempty
    simp only [Source.Filters.RenameVars.names, List.map_cons, List.map_nil, List.tail_cons,
      List.length_tail, List.length_map, List.length_nil] at same
    omega
  obtain ⟨root, rfl⟩ := List.length_eq_one_iff.mp single
  set scopes := Scopes.cons root.ownVars root.foreignVars root.children .none with hscopes
  have all : scopes.vars.Perm (trace .block e).declared := by
    have perm := collects.vars
    simpa [stackVars, Scopes.vars, hscopes, createScope, ownNames] using perm
  have nodup : ((scopes.vars ++ []).map TVar.vId).Nodup := by
    refine (List.Perm.nodup_iff (List.Perm.map _ ?_)).mpr once
    exact all.append_right []
  obtain ⟨-, named, pairs⟩ := renameVars_spec rc scopes [] (fun _ => none) nodup (by simp)
  refine ⟨renameVars rc scopes fun _ => none, ?_, ?_, ?_⟩
  · have whole := (collectVars_eq h e).whole false [createScope]
    rw [show blockKind false = .block from rfl, collected] at whole
    simp [run, whole, hscopes]
  · intro v member
    obtain ⟨name, found, free⟩ := named v (all.mem_iff.mpr member)
    simpa [vName, found] using free
  · intro r member w order
    have pair : scopes.Pair w r.2 [] := collects.recorded r member w order
    obtain ⟨inW, inU⟩ := pair.mem
    obtain ⟨nameW, foundW, -⟩ := named w inW
    obtain ⟨nameU, foundU, -⟩ := named r.2 (by simpa using inU)
    have differ := pairs w r.2 pair
    simpa [vName, foundW, foundU] using differ

/-- A platform with the default scoping. -/
def lua : Com := ⟨.lua, false, false, false⟩

def userVar (id : Nat) (name : String) : TVar :=
  ⟨id, name, .tDynamic, .vUser .localVariable, [], false⟩

/-- `{ var x; { var x; function() return x_outer; } }`: the inner `x` must be renamed. -/
def capturing : TExpr :=
  .tBlock [.tVar (userVar 0 "x") none,
    .tBlock [.tVar (userVar 1 "x") none, .tFunction [] .tDynamic (.tLocal (userVar 0 "x"))]]

/-- `{ var x; { var x; function() return x_inner; } }`: nothing has to be renamed. -/
def shadowing : TExpr :=
  .tBlock [.tVar (userVar 0 "x") none,
    .tBlock [.tVar (userVar 1 "x") none, .tFunction [] .tDynamic (.tLocal (userVar 1 "x"))]]

end Haxe.Guarantees.RenamedVariables
