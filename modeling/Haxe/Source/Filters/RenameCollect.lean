import Haxe.Source.Filters.RenameTrace

/-!
# What the first pass collects

A reference makes every variable declared after its own, and still visible, overlap with
it. `Pair w u` says that `w` has `u` among its overlaps and that `u` is renamed first,
because it is declared earlier in the scope of `w` or in a scope around it. No later
operation removes a pair.
-/

namespace Haxe.Source.Filters.RenameVars

open Core Context
open Haxe.Theory

/-- The variables of a scope, latest first. -/
def ownNames (own : OwnVars) : List TVar := own.map Prod.fst

/-- `w` overlaps with `u`, which is among the earlier variables or in `anc`. -/
def OwnPair (w u : TVar) (anc : List TVar) : OwnVars → Prop
  | [] => False
  | (v, overlaps) :: rest =>
    (v = w ∧ VarSet.has overlaps u ∧ u ∈ ownNames rest ++ anc) ∨ OwnPair w u anc rest

/-- A pair in scopes that were left; `anc` are the variables of the scopes around them. -/
def Scopes.Pair (w u : TVar) : List TVar → Scopes → Prop
  | _, .none => False
  | anc, .cons own _ children rest =>
    OwnPair w u anc own ∨ children.Pair w u (ownNames own ++ anc) ∨ rest.Pair w u anc

/-- The visible variables, latest first. -/
def visible (stack : Stack) : List TVar := stack.flatMap fun scope => ownNames scope.ownVars

/-- A pair anywhere in the open scopes and those inside them. -/
def StackPair (w u : TVar) : Stack → Prop
  | [] => False
  | scope :: parents =>
    OwnPair w u (visible parents) scope.ownVars ∨
      scope.children.Pair w u (ownNames scope.ownVars ++ visible parents) ∨
      StackPair w u parents

theorem append_mono {A B B' : List TVar} (h : B ⊆ B') : A ++ B ⊆ A ++ B' :=
  List.append_subset_of_subset_of_subset (List.subset_append_left A B')
    (List.Subset.trans h (List.subset_append_right A B'))

/-- The same variables with more overlaps. -/
def Covers (own own' : OwnVars) : Prop :=
  List.Forall₂ (fun a b => a.1 = b.1 ∧ ∀ u, VarSet.has a.2 u → VarSet.has b.2 u) own own'

theorem Covers.refl (own : OwnVars) : Covers own own :=
  List.forall₂_same.mpr fun _ _ => ⟨rfl, fun _ h => h⟩

theorem Covers.ownNames {own own' : OwnVars} (h : Covers own own') :
    ownNames own' = ownNames own := by
  induction h with
  | nil => rfl
  | cons head _ ih => exact List.cons_eq_cons.mpr ⟨head.1.symm, ih⟩

theorem OwnPair.covers {w u : TVar} {anc anc' : List TVar} {own own' : OwnVars}
    (h : OwnPair w u anc own) (covers : Covers own own') (more : anc ⊆ anc') :
    OwnPair w u anc' own' := by
  induction covers with
  | nil => exact h
  | @cons a b own own' head tail ih =>
    rcases h with ⟨same, overlap, earlier⟩ | h
    · refine Or.inl ⟨head.1 ▸ same, head.2 u overlap, ?_⟩
      rw [Covers.ownNames tail]
      exact append_mono more earlier
    · exact Or.inr (ih h)

theorem Scopes.Pair.mono {w u : TVar} {scopes : Scopes} {anc anc' : List TVar}
    (h : scopes.Pair w u anc) (more : anc ⊆ anc') : scopes.Pair w u anc' := by
  induction scopes generalizing anc anc' with
  | none => exact h
  | cons own foreign children rest ihChildren ihRest =>
    rcases h with h | h | h
    · exact Or.inl (h.covers (Covers.refl own) more)
    · exact Or.inr (Or.inl (ihChildren h (append_mono more)))
    · exact Or.inr (Or.inr (ihRest h more))

/-- All variables of scopes that were left. -/
@[grind =] def Scopes.vars : Scopes → List TVar
  | .none => []
  | .cons own _ children rest => ownNames own ++ children.vars ++ rest.vars

/-- All variables of the open scopes and those inside them. -/
def stackVars (stack : Stack) : List TVar :=
  stack.flatMap fun scope => ownNames scope.ownVars ++ scope.children.vars

theorem stackVars_cons (scope : Scope) (stack : Stack) :
    stackVars (scope :: stack) = ownNames scope.ownVars ++ scope.children.vars ++ stackVars stack :=
  rfl

theorem has_add {v u : TVar} {vars : VarSet} :
    VarSet.has (VarSet.add v vars) u ↔ v.vId = u.vId ∨ VarSet.has vars u := by
  unfold VarSet.add
  split
  · next present =>
    constructor
    · exact Or.inr
    · rintro (same | h)
      · unfold VarSet.has at present ⊢
        rwa [← same]
      · exact h
  · simp [VarSet.has]

/-- A reference to `v` among the variables of one scope. -/
theorem addOverlaps_covers (v : TVar) (own : OwnVars) : Covers own (addOverlaps v own).1 := by
  induction own with
  | nil => exact .nil
  | cons d rest ih =>
    obtain ⟨d, overlaps⟩ := d
    unfold addOverlaps
    split
    · exact Covers.refl _
    · exact .cons ⟨rfl, fun u h => has_add.mpr (Or.inr h)⟩ ih

theorem addOverlaps_found {v : TVar} {own : OwnVars} :
    (addOverlaps v own).2 = true ↔ v.vId ∈ (ownNames own).map TVar.vId := by
  induction own with
  | nil => simp [addOverlaps, ownNames]
  | cons d rest ih =>
    obtain ⟨d, overlaps⟩ := d
    unfold addOverlaps
    split
    · next same => simp [ownNames, same]
    · next differ =>
      have differ' : v.vId ≠ d.vId := Ne.symm differ
      simpa [ownNames, differ'] using ih

/-- The variables before the one referred to overlap with it. -/
theorem addOverlaps_pair {v w : TVar} {anc : List TVar} {own : OwnVars}
    (order : [w, v].Sublist (ownNames own ++ anc)) (inOwn : w ∈ ownNames own)
    (nodup : ((ownNames own ++ anc).map TVar.vId).Nodup) :
    OwnPair w v anc (addOverlaps v own).1 := by
  induction own with
  | nil => cases inOwn
  | cons d rest ih =>
    obtain ⟨d, overlaps⟩ := d
    have later : v ∈ ownNames rest ++ anc := by
      cases order with
      | cons _ sub => exact sub.subset (by simp)
      | cons_cons _ sub => exact sub.subset (by simp)
    rw [ownNames, List.map_cons, List.cons_append, List.map_cons, List.nodup_cons] at nodup
    have apart : d.vId ≠ v.vId := fun same => nodup.1 (same ▸ List.mem_map_of_mem later)
    simp only [addOverlaps, apart, if_false]
    cases order with
    | cons _ sub =>
      have notFirst : w ≠ d := by
        rintro rfl
        exact nodup.1 (List.mem_map_of_mem (sub.subset (by simp)))
      have inRest : w ∈ ownNames rest := (List.mem_cons.mp inOwn).resolve_left notFirst
      exact Or.inr (ih sub inRest nodup.2)
    | cons_cons _ sub =>
      refine Or.inl ⟨rfl, has_add.mpr (Or.inl rfl), ?_⟩
      rwa [(addOverlaps_covers v rest).ownNames]

/-- The variables of each open scope. -/
def names (stack : Stack) : List (List TVar) := stack.map fun scope => ownNames scope.ownVars

theorem visible_eq (stack : Stack) : visible stack = (names stack).flatten :=
  List.flatMap_def ..

/-- Two stacks with the same variables, of which the second has all pairs of the first. -/
structure Extends (stack stack' : Stack) : Prop where
  names : names stack' = names stack
  pairs : ∀ w u, StackPair w u stack → StackPair w u stack'
  vars : stackVars stack' = stackVars stack

theorem Extends.visible {stack stack' : Stack} (h : Extends stack stack') :
    visible stack' = visible stack := by
  rw [visible_eq, visible_eq, h.names]

theorem Extends.cons {scope scope' : Scope} {stack stack' : Stack} (h : Extends stack stack')
    (own : Covers scope.ownVars scope'.ownVars) (children : scope'.children = scope.children) :
    Extends (scope :: stack) (scope' :: stack') where
  names := by
    simp only [RenameVars.names, List.map_cons, own.ownNames]
    exact congrArg _ h.names
  pairs w u pair := by
    unfold StackPair at pair ⊢
    rw [h.visible, children, own.ownNames]
    rcases pair with pair | pair | pair
    · exact Or.inl (pair.covers own (List.Subset.refl _))
    · exact Or.inr (Or.inl pair)
    · exact Or.inr (Or.inr (h.pairs w u pair))
  vars := by
    simp only [stackVars, List.flatMap_cons, own.ownNames, children]
    exact congrArg _ h.vars

theorem Extends.refl (stack : Stack) : Extends stack stack := ⟨rfl, fun _ _ h => h, rfl⟩

theorem order_append {w v : TVar} {A B : List TVar} (h : [w, v].Sublist (A ++ B)) :
    w ∈ A ∨ [w, v].Sublist B := by
  obtain ⟨l₁, l₂, split, left, right⟩ := List.sublist_append_iff.mp h
  cases l₁ with
  | nil =>
    obtain rfl : [w, v] = l₂ := by simpa using split
    exact Or.inr right
  | cons a l₁ =>
    obtain rfl : w = a := (List.cons.inj split).1
    exact Or.inl (left.subset (by simp))

/-- A reference to a visible variable is located, and recorded for all later declarations. -/
theorem useVar_extends (rc : RenameContext) {v : TVar} {stack : Stack}
    (nodup : ((visible stack).map TVar.vId).Nodup) (inScope : v ∈ visible stack) :
    ∃ stack', useVar rc v stack = some stack' ∧ Extends stack stack' ∧
      ∀ w, [w, v].Sublist (visible stack) → StackPair w v stack' := by
  induction stack with
  | nil => cases inScope
  | cons scope parents ih =>
    change ((ownNames scope.ownVars ++ visible parents).map TVar.vId).Nodup at nodup
    have covers := addOverlaps_covers v scope.ownVars
    have own : ∀ w, [w, v].Sublist (ownNames scope.ownVars ++ visible parents) →
        w ∈ ownNames scope.ownVars → OwnPair w v (visible parents) (addOverlaps v scope.ownVars).1 :=
      fun w order inOwn => addOverlaps_pair order inOwn nodup
    have foundIff := @addOverlaps_found v scope.ownVars
    unfold useVar
    cases result : addOverlaps v scope.ownVars with
    | mk ownVars found =>
      rw [result] at covers own foundIff
      rw [List.map_append] at nodup
      cases found with
      | true =>
        refine ⟨_, rfl, (Extends.refl parents).cons ?_ ?_, fun w order => Or.inl ?_⟩
        · dsimp only
          split <;> exact covers
        · dsimp only
          split <;> rfl
        · rcases order_append order with inOwn | above
          · dsimp only
            split <;> exact own w order inOwn
          · have below : v ∈ visible parents := above.subset (by simp)
            exact absurd rfl ((List.nodup_append.mp nodup).2.2 _ (foundIff.mp rfl) _
              (List.mem_map_of_mem below))
      | false =>
        have notOwn : v ∉ ownNames scope.ownVars := fun inOwn =>
          absurd (foundIff.mpr (List.mem_map_of_mem inOwn)) (by simp)
        have above : v ∈ visible parents := (List.mem_append.mp inScope).resolve_left notOwn
        obtain ⟨parents', located, extends', recorded⟩ := ih (List.nodup_append.mp nodup).2.1 above
        simp only [located]
        refine ⟨_, rfl, extends'.cons ?_ ?_, fun w order => ?_⟩
        · dsimp only
          split <;> split <;> exact covers
        · dsimp only
          split <;> split <;> rfl
        · rcases order_append order with inOwn | order
          · left
            rw [extends'.visible]
            dsimp only
            split <;> split <;> exact own w order inOwn
          · exact Or.inr (Or.inr (recorded w order))

/-- Leaving a scope keeps its pairs, now among the children of its parent. -/
theorem leave_pairs {child parent : Scope} {parents : Stack} {w u : TVar}
    (h : StackPair w u (child :: parent :: parents)) :
    StackPair w u (leave child parent :: parents) := by
  rcases h with h | h | h | h | h
  · exact Or.inr (Or.inl (Or.inl h))
  · exact Or.inr (Or.inl (Or.inr (Or.inl h)))
  · exact Or.inl h
  · exact Or.inr (Or.inl (Or.inr (Or.inr h)))
  · exact Or.inr (Or.inr h)

/-- What the traversal of `t` does to the stack. -/
structure Collects (rc : RenameContext) (t : Trace TVar ScopeKind) (stack stack' : Stack) :
    Prop where
  nonempty : stack' ≠ []
  tail : (names stack').tail = (names stack).tail
  visible : visible stack' = t.env (opens rc) (visible stack)
  pairs : ∀ w u, StackPair w u stack → StackPair w u stack'
  recorded : ∀ r ∈ t.references (opens rc) (RenameVars.visible stack),
    ∀ w, [w, r.2].Sublist r.1 → StackPair w r.2 stack'
  vars : (stackVars stack').Perm (t.declared ++ stackVars stack)

/-- Each variable is declared once. -/
def DeclaredOnce (t : Trace TVar ScopeKind) (E : List TVar) : Prop :=
  ((t.declared ++ E).map TVar.vId).Nodup

/-- Each reference stands where its variable is visible. -/
def WellScoped (opens : ScopeKind → Bool) (t : Trace TVar ScopeKind) (E : List TVar) : Prop :=
  ∀ r ∈ t.references opens E, r.2 ∈ r.1

theorem DeclaredOnce.visible {t : Trace TVar ScopeKind} {E : List TVar} (h : DeclaredOnce t E) :
    (E.map TVar.vId).Nodup := by
  unfold DeclaredOnce at h
  rw [List.map_append] at h
  exact (List.nodup_append.mp h).2.1

theorem collectTrace_declare {rc : RenameContext} {v : TVar} {stack : Stack}
    (nonempty : stack ≠ []) :
    Collects rc (.declare v .done) stack (declareVar rc v stack) := by
  cases stack with
  | nil => exact absurd rfl nonempty
  | cons scope parents =>
    refine ⟨by simp [declareVar, onScope], rfl, rfl, ?_, by simp [Trace.references], ?_⟩
    · intro w u pair
      rcases pair with pair | pair | pair
      · exact Or.inl (Or.inr pair)
      · refine Or.inr (Or.inl (pair.mono ?_))
        exact List.subset_cons_self ..
      · exact Or.inr (Or.inr pair)
    · exact List.Perm.refl _

/-- One trace after another. -/
theorem Collects.trans {rc : RenameContext} {t t' : Trace TVar ScopeKind}
    {stack stack' stack'' : Stack} (h : Collects rc t stack stack')
    (h' : Collects rc t' stack' stack'') : Collects rc (t.append t') stack stack'' where
  nonempty := h'.nonempty
  tail := h'.tail.trans h.tail
  visible := by rw [h'.visible, h.visible, Trace.env_append]
  pairs w u pair := h'.pairs w u (h.pairs w u pair)
  recorded r member w order := by
    rw [Trace.references_append] at member
    rcases List.mem_append.mp member with member | member
    · exact h'.pairs w r.2 (h.recorded r member w order)
    · exact h'.recorded r (h.visible ▸ member) w order
  vars := by
    rw [Trace.declared_append, List.append_assoc]
    refine h'.vars.trans ((h.vars.append_left t'.declared).trans ?_)
    rw [← List.append_assoc, ← List.append_assoc]
    exact List.perm_append_comm.append_right _

theorem collectTrace_use {rc : RenameContext} {v : TVar} {stack : Stack} (nonempty : stack ≠ [])
    (once : DeclaredOnce (.use v .done) (visible stack))
    (wellScoped : WellScoped (opens rc) (.use v .done) (visible stack)) :
    ∃ stack', useVar rc v stack = some stack' ∧ Collects rc (.use v .done) stack stack' := by
  have inScope : v ∈ visible stack := wellScoped (visible stack, v) (by simp [Trace.references])
  obtain ⟨stack', located, extends', recorded⟩ := useVar_extends rc once.visible inScope
  refine ⟨stack', located, ?_, congrArg List.tail extends'.names, extends'.visible,
    extends'.pairs, ?_, ?_⟩
  · rintro rfl
    have := congrArg List.length extends'.names
    simp only [names, List.map_nil, List.length_nil, List.length_map] at this
    exact nonempty (List.length_eq_zero_iff.mp this.symm)
  · intro r member w order
    obtain rfl : r = (visible stack, v) := by simpa [Trace.references] using member
    exact recorded w order
  · exact extends'.vars ▸ List.Perm.refl _

/-- A scope that is opened and left again. -/
theorem inScope_collects {rc : RenameContext} {k : ScopeKind} {body : Trace TVar ScopeKind}
    {stack inner : Stack} (nonempty : stack ≠ []) (opened : opens rc k = true)
    (h : Collects rc body (createScope :: stack) inner)
    (run : collectTrace rc body (createScope :: stack) = some inner) :
    ∃ stack', inScope (collectTrace rc body) stack = some stack' ∧
      Collects rc (.scope k body .done) stack stack' := by
  obtain ⟨child, below, rfl⟩ := List.exists_cons_of_ne_nil h.nonempty
  have same : names below = names stack := h.tail
  obtain ⟨parent, parents, rfl⟩ : ∃ parent parents, below = parent :: parents := by
    refine List.exists_cons_of_ne_nil ?_
    rintro rfl
    exact nonempty (List.map_eq_nil_iff.mp same.symm)
  refine ⟨leave child parent :: parents, by simp [inScope, run], by simp, congrArg List.tail same,
    ?_, ?_, ?_, ?_⟩
  · simp only [Trace.env, opened, if_true]
    rw [visible_eq, visible_eq stack, ← same]
    rfl
  · intro w u pair
    exact leave_pairs (h.pairs w u (Or.inr (Or.inr pair)))
  · intro r member w order
    have inBody : r ∈ body.references (opens rc) (visible stack) := by
      simpa [Trace.references] using member
    exact leave_pairs (h.recorded r inBody w order)
  · simp only [Trace.declared, List.append_nil]
    refine List.Perm.trans ?_ h.vars
    simp only [stackVars_cons, leave, Scopes.vars]
    have swap : (ownNames parent.ownVars ++ (ownNames child.ownVars ++ child.children.vars)).Perm
        (ownNames child.ownVars ++ child.children.vars ++ ownNames parent.ownVars) :=
      List.perm_append_comm
    simpa only [List.append_assoc] using swap.append_right
      (parent.children.vars ++ stackVars parents)

/-- Only the loop fields of the innermost scope change. -/
theorem onScope_extends {f : Scope → Scope} (own : ∀ scope, (f scope).ownVars = scope.ownVars)
    (children : ∀ scope, (f scope).children = scope.children) (stack : Stack) :
    Extends stack (onScope f stack) := by
  cases stack with
  | nil => exact Extends.refl []
  | cons scope parents =>
    exact (Extends.refl parents).cons (by rw [own]; exact Covers.refl _) (children scope)

theorem Extends.nonempty {stack stack' : Stack} (h : Extends stack stack')
    (nonempty : stack ≠ []) : stack' ≠ [] := by
  rintro rfl
  have same := congrArg List.length h.names
  simp only [RenameVars.names, List.map_nil, List.length_nil, List.length_map] at same
  exact nonempty (List.length_eq_zero_iff.mp same.symm)

theorem loop_collects {rc : RenameContext} {body : Trace TVar ScopeKind}
    {stack outer inner : Stack} (before : Extends stack outer)
    (h : Collects rc body outer inner) {after : Stack} (leaves : Extends inner after) :
    Collects rc (.loop body .done) stack after where
  nonempty := leaves.nonempty h.nonempty
  tail := by rw [leaves.names, h.tail, before.names]
  visible := by rw [leaves.visible, h.visible, before.visible]; rfl
  pairs w u pair := leaves.pairs w u (h.pairs w u (before.pairs w u pair))
  recorded r member w order := by
    have inBody : r ∈ body.references (opens rc) (RenameVars.visible outer) := by
      rw [before.visible]
      simpa [Trace.references] using member
    exact leaves.pairs w r.2 (h.recorded r inBody w order)
  vars := by
    rw [leaves.vars, ← before.vars]
    simpa [Trace.declared] using h.vars

theorem DeclaredOnce.append {t t' : Trace TVar ScopeKind} {E : List TVar}
    (h : DeclaredOnce (t.append t') E) (p : ScopeKind → Bool) :
    DeclaredOnce t E ∧ DeclaredOnce t' (t.env p E) := by
  unfold DeclaredOnce at h ⊢
  rw [Trace.declared_append] at h
  constructor
  · refine h.sublist (List.Sublist.map _ (List.Sublist.append_right ?_ E))
    exact List.sublist_append_left _ _
  · have visible : (t'.declared ++ t.env p E).Sublist (t'.declared ++ (t.declared.reverse ++ E)) :=
      (Trace.env_sublist_declared p t E).append_left _
    refine List.Nodup.sublist (visible.map _) ((List.Perm.nodup_iff ?_).mpr h)
    refine List.Perm.map _ ?_
    rw [← List.append_assoc]
    refine List.Perm.append_right E ?_
    exact List.perm_append_comm.trans ((List.reverse_perm _).append_right _)

theorem WellScoped.append {p : ScopeKind → Bool} {t t' : Trace TVar ScopeKind} {E : List TVar}
    (h : WellScoped p (t.append t') E) : WellScoped p t E ∧ WellScoped p t' (t.env p E) := by
  unfold WellScoped at h ⊢
  rw [Trace.references_append] at h
  exact ⟨fun r member => h r (List.mem_append_left _ member),
    fun r member => h r (List.mem_append_right _ member)⟩

/-- The traversal of `t` succeeds wherever its variables are declared once and visible where
they are referred to. -/
def Traversable (rc : RenameContext) (t : Trace TVar ScopeKind) : Prop :=
  ∀ stack, stack ≠ [] → DeclaredOnce t (visible stack) → WellScoped (opens rc) t (visible stack) →
    ∃ stack', collectTrace rc t stack = some stack' ∧ Collects rc t stack stack'

theorem Traversable.append {rc : RenameContext} {t t' : Trace TVar ScopeKind}
    (h : Traversable rc t) (h' : Traversable rc t') : Traversable rc (t.append t') := by
  intro stack nonempty once wellScoped
  obtain ⟨onceHead, onceRest⟩ := once.append (opens rc)
  obtain ⟨scopedHead, scopedRest⟩ := wellScoped.append
  obtain ⟨stack', run, collects⟩ := h stack nonempty onceHead scopedHead
  rw [← collects.visible] at onceRest scopedRest
  obtain ⟨stack'', run', collects'⟩ := h' stack' collects.nonempty onceRest scopedRest
  exact ⟨stack'', by rw [collectTrace_append, run]; exact run', collects.trans collects'⟩

theorem traversable (rc : RenameContext) (t : Trace TVar ScopeKind) : Traversable rc t := by
  induction t with
  | done =>
    intro stack nonempty once wellScoped
    exact ⟨stack, rfl, nonempty, rfl, rfl, fun _ _ h => h, by simp [Trace.references],
      List.Perm.refl _⟩
  | declare v rest ih =>
    refine Traversable.append (t := .declare v .done) ?_ ih
    intro stack nonempty once wellScoped
    exact ⟨_, rfl, collectTrace_declare nonempty⟩
  | use v rest ih =>
    refine Traversable.append (t := .use v .done) ?_ ih
    intro stack nonempty once wellScoped
    obtain ⟨stack', run, collects⟩ := collectTrace_use nonempty once wellScoped
    exact ⟨stack', by simp [collectTrace, run], collects⟩
  | scope k body rest ihBody ih =>
    refine Traversable.append (t := .scope k body .done) ?_ ih
    intro stack nonempty once wellScoped
    have onceBody : DeclaredOnce body (visible stack) := by
      simpa [DeclaredOnce, Trace.declared] using once
    have scopedBody : WellScoped (opens rc) body (visible stack) := by
      simpa [WellScoped, Trace.references] using wellScoped
    rw [collectTrace_scope]
    cases opened : opens rc k with
    | true =>
      obtain ⟨inner, run, collects⟩ := ihBody (createScope :: stack) (by simp) onceBody scopedBody
      obtain ⟨stack', run', collects'⟩ := inScope_collects nonempty opened collects run
      exact ⟨stack', by simpa using run', collects'⟩
    | false =>
      obtain ⟨stack', run, collects⟩ := ihBody stack nonempty onceBody scopedBody
      refine ⟨stack', by simpa using run, collects.nonempty, collects.tail, ?_, collects.pairs,
        ?_, ?_⟩
      · simpa [Trace.env, opened] using collects.visible
      · simpa [Trace.references] using collects.recorded
      · simpa [Trace.declared] using collects.vars
  | loop body rest ihBody ih =>
    refine Traversable.append (t := .loop body .done) ?_ ih
    intro stack nonempty once wellScoped
    have before := onScope_extends
      (f := fun scope => { scope with loopCount := scope.loopCount + 1 })
      (fun _ => rfl) (fun _ => rfl) stack
    obtain ⟨inner, run, collects⟩ := ihBody _ (before.nonempty nonempty)
      (by rw [before.visible]; simpa [DeclaredOnce, Trace.declared] using once)
      (by rw [before.visible]; simpa [WellScoped, Trace.references] using wellScoped)
    rw [collectTrace_loop]
    refine ⟨_, by simp only [collectLoop, run]; rfl, loop_collects before collects ?_⟩
    apply onScope_extends
    · exact fun _ => rfl
    · exact fun _ => rfl

end Haxe.Source.Filters.RenameVars
