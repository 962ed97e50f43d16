import Haxe.Source.Optimization.Purity
import Haxe.Theory.Raising

/-!
# What tainting does

A node that becomes impure takes its dependents and the same-named fields of the super
classes with it. `Taints` is what one call of `taint` may do to the table of nodes;
`Valid` is what every table keeps.
-/

namespace Haxe.Source.Optimization.Purity

open Typing (Pos)
open Core Context
open Haxe.Theory

@[grind =] def isImpure (lut : NodeLut) (id : FieldId) : Bool :=
  match lut id with
  | some n => n.pnPurity = .impure
  | none => false

theorem isImpure_iff {lut : NodeLut} {id : FieldId} :
    isImpure lut id ↔ ∃ n, lut id = some n ∧ n.pnPurity = .impure := by
  unfold isImpure
  cases lut id with
  | none => simp
  | some n => simp

/-- The purity the metadata gives the field of a node. -/
def PurityNode.declared (n : PurityNode) : Except PurityError Purity :=
  getPurity n.pnClass n.pnField

/-- The purities a node can have that was created with `p`. -/
def Later (p p' : Purity) : Prop := p' = p ∨ p' = .impure ∧ ∀ q, p ≠ .expectPure q

theorem Later.refl (p : Purity) : Later p p := Or.inl rfl

theorem Later.trans {p p' p'' : Purity} (h : Later p p') (h' : Later p' p'') : Later p p'' := by
  rcases h with rfl | ⟨rfl, free⟩
  · exact h'
  · rcases h' with rfl | ⟨rfl, -⟩ <;> exact Or.inr ⟨rfl, free⟩

/-- A node after some tainting. -/
structure SameNode (n n' : PurityNode) : Prop where
  pnClass : n'.pnClass = n.pnClass
  pnField : n'.pnField = n.pnField
  pnDependents : n'.pnDependents = n.pnDependents
  pnPurity : Later n.pnPurity n'.pnPurity

theorem SameNode.refl (n : PurityNode) : SameNode n n := ⟨rfl, rfl, rfl, Later.refl _⟩

theorem SameNode.trans {n n' n'' : PurityNode} (h : SameNode n n') (h' : SameNode n' n'') :
    SameNode n n'' where
  pnClass := h'.pnClass.trans h.pnClass
  pnField := h'.pnField.trans h.pnField
  pnDependents := h'.pnDependents.trans h.pnDependents
  pnPurity := h.pnPurity.trans h'.pnPurity

/-- The impurity of a node has reached its dependents and the super classes. A node that
was declared impure is not tainted and reaches nothing. -/
def Spread (lut : NodeLut) (n : PurityNode) : Prop :=
  n.declared = .ok .impure ∨
    (∀ d ∈ n.pnDependents, isImpure lut d) ∧
    ∀ c ∈ n.pnClass.supers, ∀ cf, findField n.pnField.cfName c = some cf →
      isImpure lut (getFieldId c cf)

/-- What tainting may do to the table. -/
structure Taints (lut lut' : NodeLut) : Prop where
  kept : ∀ id n, lut id = some n → ∃ n', lut' id = some n' ∧ SameNode n n'
  spread : ∀ id n', lut' id = some n' → n'.pnPurity = .impure → isImpure lut id ∨ Spread lut' n'

theorem Taints.isImpure {lut lut' : NodeLut} (h : Taints lut lut') {id : FieldId}
    (impure : isImpure lut id) : isImpure lut' id := by
  obtain ⟨n, found, impure⟩ := isImpure_iff.mp impure
  obtain ⟨n', found', same⟩ := h.kept id n found
  refine isImpure_iff.mpr ⟨n', found', ?_⟩
  rcases same.pnPurity with unchanged | ⟨changed, -⟩
  · exact unchanged.trans impure
  · exact changed

theorem SameNode.declared {n n' : PurityNode} (h : SameNode n n') : n'.declared = n.declared := by
  unfold PurityNode.declared
  rw [h.pnClass, h.pnField]

theorem Spread.later {lut lut' : NodeLut} {n n' : PurityNode} (h : Spread lut n)
    (impure : ∀ id, isImpure lut id → isImpure lut' id) (same : SameNode n n') :
    Spread lut' n' := by
  unfold Spread
  rw [same.declared, same.pnDependents, same.pnClass, same.pnField]
  rcases h with declared | ⟨dependents, supers⟩
  · exact Or.inl declared
  · exact Or.inr ⟨fun d member => impure d (dependents d member),
      fun c member cf found => impure _ (supers c member cf found)⟩

theorem Taints.refl (lut : NodeLut) : Taints lut lut where
  kept _ n found := ⟨n, found, SameNode.refl n⟩
  spread _ n found impure := Or.inl (isImpure_iff.mpr ⟨n, found, impure⟩)

theorem Taints.trans {lut lut' lut'' : NodeLut} (h : Taints lut lut') (h' : Taints lut' lut'') :
    Taints lut lut'' where
  kept id n found := by
    obtain ⟨n', found', same⟩ := h.kept id n found
    obtain ⟨n'', found'', same'⟩ := h'.kept id n' found'
    exact ⟨n'', found'', same.trans same'⟩
  spread id n'' found'' impure := by
    rcases h'.spread id n'' found'' impure with before | spread
    · obtain ⟨n', found', impure'⟩ := isImpure_iff.mp before
      rcases h.spread id n' found' impure' with before | spread
      · exact Or.inl before
      · obtain ⟨m, foundm, same⟩ := h'.kept id n' found'
        obtain rfl : m = n'' := Option.some.inj (foundm.symm.trans found'')
        exact Or.inr (spread.later (fun _ => h'.isImpure) same)
    · exact Or.inr spread

/-- A name that may be tainted although it was declared pure: it belongs to a variable, a
dynamic method or an instance field, which may be overridden, or to a second field. -/
def Exposed (P : Program) (id : FieldId) : Prop :=
  ∃ f ∈ allFields P.types, getFieldId f.1 f.2 = id ∧
    (f.2.cfKind = .var ∨ f.2.cfKind = .method .methDynamic ∨ f.2 ∈ f.1.clFields ∨
      f.2 ∈ f.1.clOrderedFields ∨ getPurity f.1 f.2 ≠ .ok .pure)

/-- What holds of the node stored for `id`. -/
structure ValidNode (P : Program) (lut : NodeLut) (id : FieldId) (n : PurityNode) : Prop where
  field : (n.pnClass, n.pnField) ∈ allFields P.types
  key : getFieldId n.pnClass n.pnField = id
  purity : ∃ p, n.declared = .ok p ∧ Later p n.pnPurity
  dependents : ∀ d ∈ n.pnDependents, ∃ nd, lut d = some nd ∧ nd.declared ≠ .ok .pure
  exposed : n.pnPurity = .impure → n.declared = .ok .pure → Exposed P id
  quiet : n.declared = .ok .impure → n.pnDependents = []

/-- What holds of the table of nodes at any time. -/
def Valid (P : Program) (lut : NodeLut) : Prop := ∀ id n, lut id = some n → ValidNode P lut id n

/-- The fields that can still be tainted, counted once for each class that has them. -/
def undecided (P : Program) (lut : NodeLut) : Nat :=
  (allFields P.types).countP fun f => !isImpure lut (getFieldId f.1 f.2)

theorem Taints.undecided_le {P : Program} {lut lut' : NodeLut} (h : Taints lut lut') :
    undecided P lut' ≤ undecided P lut := by
  refine List.countP_mono_left fun f _ open' => ?_
  simp only [Bool.not_eq_true'] at open' ⊢
  by_contra impure
  rw [h.isImpure (by simpa using impure)] at open'
  cases open'

theorem undecided_lt {P : Program} {lut lut' : NodeLut} {f : TClass × TClassField}
    (member : f ∈ allFields P.types) (grows : ∀ id, isImpure lut id → isImpure lut' id)
    (before : isImpure lut (getFieldId f.1 f.2) = false)
    (after : isImpure lut' (getFieldId f.1 f.2)) : undecided P lut' < undecided P lut := by
  have mono : ∀ l : List (TClass × TClassField),
      l.countP (fun f => !isImpure lut' (getFieldId f.1 f.2)) ≤
        l.countP fun f => !isImpure lut (getFieldId f.1 f.2) := by
    intro l
    refine List.countP_mono_left fun g _ open' => ?_
    by_contra impure
    simp [grows _ (by simpa using impure)] at open'
  obtain ⟨A, B, split⟩ := List.append_of_mem member
  unfold undecided
  rw [split, List.countP_append, List.countP_append, List.countP_cons, List.countP_cons, before,
    after]
  have := mono A
  have := mono B
  simp only [Bool.not_true, Bool.not_false, ↓reduceIte]
  simp only [Bool.false_eq_true, ↓reduceIte]
  omega

theorem mem_allFields_super {types : List TClass} {c s : TClass} {cf g : TClassField}
    (member : (c, cf) ∈ allFields types) (super : s ∈ c.supers) (field : g ∈ s.clFields) :
    (s, g) ∈ allFields types := by
  obtain ⟨t, inTypes, below⟩ := List.mem_flatMap.mp member
  obtain ⟨c', chain, own⟩ := List.mem_flatMap.mp below
  obtain ⟨cf', -, same⟩ := List.mem_map.mp own
  obtain ⟨rfl, rfl⟩ := Prod.mk.inj same
  refine List.mem_flatMap.mpr ⟨t, inTypes, List.mem_flatMap.mpr ⟨s, ?_, ?_⟩⟩
  · rcases List.mem_cons.mp chain with rfl | chain
    · exact List.mem_cons_of_mem _ super
    · exact List.mem_cons_of_mem _ (TClass.supers_trans chain super)
  · refine List.mem_map.mpr ⟨g, ?_, rfl⟩
    simp [field]

theorem findField_some {name : String} {c : TClass} {cf : TClassField}
    (h : findField name c = some cf) : cf ∈ c.clFields ∧ cf.cfName = name := by
  refine ⟨List.mem_of_find?_eq_some h, ?_⟩
  simpa using List.find?_some h

/-- How a step may end without returning: the errors of the source are allowed, running out
of fuel is not. -/
def Stop.Raised (Q : NodeLut → Prop) : Stop → Prop
  | .exit lut => Q lut
  | .purityConflict _ _ => True
  | .error _ => True
  | .outOfFuel => False

theorem update_eq_some {lut : NodeLut} {id x : FieldId} {m n : PurityNode}
    (h : Function.update lut id (some m) x = some n) :
    x = id ∧ n = m ∨ x ≠ id ∧ lut x = some n := by
  by_cases here : x = id
  · subst here
    rw [Function.update_self] at h
    exact Or.inl ⟨rfl, (Option.some.inj h).symm⟩
  · rw [Function.update_of_ne here] at h
    exact Or.inr ⟨here, h⟩

/-- A node that is created changes no other node. -/
theorem fresh_taints {lut : NodeLut} {id : FieldId} {m : PurityNode} (absent : lut id = none)
    (declared : m.declared = .ok m.pnPurity) : Taints lut (Function.update lut id (some m)) where
  kept x n found := by
    refine ⟨n, ?_, SameNode.refl n⟩
    rw [Function.update_of_ne _ _ _, found]
    rintro rfl
    rw [absent] at found
    cases found
  spread x n found impure := by
    rcases update_eq_some found with ⟨rfl, rfl⟩ | ⟨-, found⟩
    · rw [impure] at declared
      exact Or.inr (Or.inl declared)
    · exact Or.inl (isImpure_iff.mpr ⟨n, found, impure⟩)

/-- The table after a field was given its node. -/
theorem getNode_ends {P : Program} {Q : NodeLut → Prop} {c : TClass} {cf : TClassField}
    {lut : NodeLut} (valid : Valid P lut) (member : (c, cf) ∈ allFields P.types) :
    Ends (fun r => Valid P r.2 ∧ Taints lut r.2 ∧ r.2 (getFieldId c cf) = some r.1)
      (Stop.Raised Q) (getNode c cf lut) := by
  unfold getNode
  cases found : lut (getFieldId c cf) with
  | some node => exact ⟨valid, Taints.refl lut, found⟩
  | none =>
    cases declared : getPurity c cf with
    | error e => exact trivial
    | ok p =>
      have taints := fresh_taints (m := ⟨c, cf, p, []⟩) found declared
      refine ⟨?_, taints, Function.update_self ..⟩
      intro id n foundn
      rcases update_eq_some foundn with ⟨rfl, rfl⟩ | ⟨-, foundn⟩
      · refine ⟨member, rfl, ⟨p, declared, Later.refl p⟩, by simp, ?_, fun _ => rfl⟩
        intro (impure : p = .impure) pure
        have := declared.symm.trans pure
        rw [impure] at this
        cases this
      · have node := valid id n foundn
        refine ⟨node.field, node.key, node.purity, ?_, node.exposed, node.quiet⟩
        intro d inside
        obtain ⟨nd, foundd, notPure⟩ := node.dependents d inside
        obtain ⟨nd', foundd', same⟩ := taints.kept d nd foundd
        exact ⟨nd', foundd', same.declared ▸ notPure⟩

/-- Marking one node, before its impurity has spread. -/
theorem mark_valid {P : Program} {lut : NodeLut} {id : FieldId} {n : PurityNode}
    (valid : Valid P lut) (found : lut id = some n) (free : ∀ p, n.pnPurity ≠ .expectPure p)
    (exposed : n.declared = .ok .pure → Exposed P id) :
    Valid P (Function.update lut id (some { n with pnPurity := .impure })) := by
  have declared : ∀ d nd, lut d = some nd → nd.declared ≠ .ok .pure →
      ∃ nd', Function.update lut id (some { n with pnPurity := .impure }) d = some nd' ∧
        nd'.declared ≠ .ok .pure := by
    intro d nd foundd notPure
    by_cases here : d = id
    · subst here
      obtain rfl : nd = n := Option.some.inj (foundd.symm.trans found)
      exact ⟨_, Function.update_self .., notPure⟩
    · exact ⟨nd, (Function.update_of_ne here ..).trans foundd, notPure⟩
  intro x m foundm
  rcases update_eq_some foundm with ⟨rfl, rfl⟩ | ⟨-, foundm⟩
  · have node := valid x n found
    obtain ⟨p, atFirst, later⟩ := node.purity
    refine ⟨node.field, node.key, ⟨p, atFirst, ?_⟩, ?_, fun _ => exposed, node.quiet⟩
    · refine Or.inr ⟨rfl, ?_⟩
      rcases later with same | ⟨-, never⟩
      · exact same ▸ free
      · exact never
    · intro d inside
      obtain ⟨nd, foundd, notPure⟩ := node.dependents d inside
      exact declared d nd foundd notPure
  · have node := valid x m foundm
    refine ⟨node.field, node.key, node.purity, ?_, node.exposed, node.quiet⟩
    intro d inside
    obtain ⟨nd, foundd, notPure⟩ := node.dependents d inside
    exact declared d nd foundd notPure

theorem isImpure_mark {lut : NodeLut} {id x : FieldId} {n : PurityNode} :
    isImpure (Function.update lut id (some { n with pnPurity := .impure })) x ↔
      x = id ∨ isImpure lut x := by
  unfold isImpure
  by_cases here : x = id
  · subst here
    simp
  · simp [here]

/-- A fold of steps that taint. -/
theorem taints_foldlM {ι : Type} {P : Program} {Q : NodeLut → Prop}
    {f : NodeLut → ι → Except Stop NodeLut} {l : List ι} {R : ι → NodeLut → Prop} {start : NodeLut}
    (valid : Valid P start) (stable : ∀ a s s', R a s → Taints s s' → R a s')
    (step : ∀ a ∈ l, ∀ s, Valid P s → Taints start s →
      Ends (fun s' => Valid P s' ∧ Taints s s' ∧ R a s') (Stop.Raised Q) (f s a)) :
    Ends (fun s => Valid P s ∧ Taints start s ∧ ∀ a ∈ l, R a s) (Stop.Raised Q)
      (l.foldlM f start) := by
  have whole : Ends (fun s => (Valid P s ∧ Taints start s) ∧ (∀ a ∈ l, R a s) ∧
      ∀ a, R a start → R a s) (Stop.Raised Q) (l.foldlM f start) := by
    refine Ends.foldlM_forall ?_ ⟨valid, Taints.refl start⟩
    rintro a member s ⟨validS, taints⟩
    refine (step a member s validS taints).mono ?_
    rintro s' ⟨validS', below, here⟩
    exact ⟨⟨validS', taints.trans below⟩, here, fun b h => stable b s s' h below⟩
  exact whole.mono fun s ⟨⟨validS, taints⟩, all, _⟩ => ⟨validS, taints, all⟩

/-- What tainting a node guarantees, given fuel for the nodes that are undecided. -/
def TaintSpec (P : Program) (Q : NodeLut → Prop) (few : Nat)
    (taint : FieldId → NodeLut → Except Stop NodeLut) : Prop :=
  ∀ lut id n, Valid P lut → lut id = some n → (n.declared = .ok .pure → Exposed P id) →
    undecided P lut < few →
    Ends (fun lut' => Valid P lut' ∧ Taints lut lut' ∧ isImpure lut' id) (Stop.Raised Q)
      (taint id lut)

theorem taintOthers_ends {P : Program} {Q : NodeLut → Prop} {few : Nat}
    {taint : FieldId → NodeLut → Except Stop NodeLut} (spec : TaintSpec P Q few taint)
    {lut : NodeLut} {node : PurityNode} (valid : Valid P lut)
    (field : (node.pnClass, node.pnField) ∈ allFields P.types)
    (dependents : ∀ d ∈ node.pnDependents, ∃ nd, lut d = some nd ∧ nd.declared ≠ .ok .pure)
    (fewer : undecided P lut < few) :
    Ends (fun lut' => Valid P lut' ∧ Taints lut lut' ∧ Spread lut' node) (Stop.Raised Q)
      (taintOthers taint node lut) := by
  have first := taints_foldlM (Q := Q) (f := fun lut d => taint d lut) (l := node.pnDependents)
    (R := fun d s => isImpure s d) valid (fun d s s' h below => below.isImpure h) (by
      intro d inside s validS taints
      obtain ⟨nd, foundd, notPure⟩ := dependents d inside
      obtain ⟨nd', foundd', same⟩ := taints.kept d nd foundd
      refine spec s d nd' validS foundd' ?_ (Nat.lt_of_le_of_lt taints.undecided_le fewer)
      intro pure
      exact absurd (same.declared ▸ pure) notPure)
  refine first.bind fun s ⟨validS, taints, dependentsImpure⟩ => ?_
  refine (taints_foldlM (R := fun c s => ∀ cf, findField node.pnField.cfName c = some cf →
      isImpure s (getFieldId c cf)) validS ?_ ?_).mono ?_
  · intro c s s' h below cf found
    exact below.isImpure (h cf found)
  · intro c above s' validS' since
    cases found : findField node.pnField.cfName c with
    | none => exact ⟨validS', Taints.refl s', by simp⟩
    | some cf =>
      obtain ⟨inClass, -⟩ := findField_some found
      have member := mem_allFields_super field above inClass
      refine (getNode_ends validS' member).bind fun ⟨m, s''⟩ ⟨validS'', created, foundm⟩ => ?_
      have few' := ((taints.trans since).trans created).undecided_le (P := P)
      refine (spec s'' _ m validS'' foundm ?_ (Nat.lt_of_le_of_lt few' fewer)).mono ?_
      · intro _
        exact ⟨(c, cf), member, rfl, Or.inr (Or.inr (Or.inl inClass))⟩
      · rintro final ⟨validFinal, below, tainted⟩
        refine ⟨validFinal, created.trans below, ?_⟩
        rintro _ ⟨⟩
        exact tainted
  · rintro final ⟨validFinal, since, supersImpure⟩
    refine ⟨validFinal, taints.trans since, Or.inr ⟨?_, supersImpure⟩⟩
    intro d inside
    exact since.isImpure (dependentsImpure d inside)

/-- Marking a node taints nothing else, and its own impurity has spread afterwards. -/
theorem mark_taints {lut lut' : NodeLut} {id : FieldId} {n : PurityNode} (found : lut id = some n)
    (free : ∀ p, n.pnPurity ≠ .expectPure p)
    (since : Taints (Function.update lut id (some { n with pnPurity := .impure })) lut')
    (spread : Spread lut' n) : Taints lut lut' where
  kept x m foundm := by
    by_cases here : x = id
    · subst here
      obtain rfl : m = n := Option.some.inj (foundm.symm.trans found)
      obtain ⟨n', found', same⟩ := since.kept x _ (Function.update_self ..)
      refine ⟨n', found', same.pnClass, same.pnField, same.pnDependents, ?_⟩
      rcases same.pnPurity with impure | ⟨impure, -⟩ <;> exact Or.inr ⟨impure, free⟩
    · exact since.kept x m ((Function.update_of_ne here ..).trans foundm)
  spread x m foundm impure := by
    rcases since.spread x m foundm impure with before | done
    · rcases isImpure_mark.mp before with rfl | before
      · obtain ⟨n', found', same⟩ := since.kept x _ (Function.update_self ..)
        obtain rfl : n' = m := Option.some.inj (found'.symm.trans foundm)
        refine Or.inr (spread.later (fun _ h => h)
          ⟨same.pnClass, same.pnField, same.pnDependents, ?_⟩)
        exact Or.inr ⟨impure, free⟩
      · exact Or.inl before
    · exact Or.inr done

/-- Tainting a node: what is tainted spreads, and the fuel suffices. -/
theorem taint_ends {P : Program} {Q : NodeLut → Prop} (fuel : Nat) :
    TaintSpec P Q fuel (taint fuel) := by
  induction fuel with
  | zero => intro lut id n _ _ _ few; omega
  | succ fuel ih =>
    intro lut id n valid found exposed few
    have node := valid id n found
    have others (open' : n.pnPurity ≠ .impure) (free : ∀ p, n.pnPurity ≠ .expectPure p) :
        Ends (fun lut' => Valid P lut' ∧ Taints lut lut' ∧ isImpure lut' id) (Stop.Raised Q)
          (taintOthers (taint fuel) n
            (Function.update lut id (some { n with pnPurity := .impure }))) := by
      have validMarked := mark_valid valid found free exposed
      have fewer := @undecided_lt P lut
        (Function.update lut id (some { n with pnPurity := .impure })) _
        node.field (fun x before => isImpure_mark.mpr (Or.inr before))
        (by
          rw [node.key]
          simpa [isImpure, found] using open')
        (isImpure_mark.mpr (Or.inl node.key))
      refine (taintOthers_ends ih validMarked node.field
        (validMarked id _ (Function.update_self ..)).dependents (by omega)).mono ?_
      rintro lut' ⟨validAfter, since, spread⟩
      exact ⟨validAfter, mark_taints found free since spread,
        since.isImpure (isImpure_mark.mpr (Or.inl rfl))⟩
    unfold taint
    rw [found]
    cases purity : n.pnPurity with
    | impure =>
      simp only [purity]
      exact ⟨valid, Taints.refl lut, isImpure_iff.mpr ⟨n, found, purity⟩⟩
    | expectPure p =>
      simp only [purity]
      trivial
    | maybePure | pure | inferredPure =>
      simp only [purity]
      exact others (by simp [purity]) (by simp [purity])

end Haxe.Source.Optimization.Purity
