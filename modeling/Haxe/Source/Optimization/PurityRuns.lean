import Haxe.Source.Optimization.PurityBody

/-!
# Whole runs of purity inference

Between two fields every impurity has spread, and every field that was seen is impure,
declared pure, or has a body whose calls are all recorded. `applyToField_ends` is the step,
`types_ends` the run.
-/

namespace Haxe.Source.Optimization.Purity

open Core Context
open Haxe.Theory

/-- What holds of the table between two fields. -/
structure Between (P : Program) (lut : NodeLut) : Prop where
  valid : Valid P lut
  spread : AllSpread lut

theorem Grows.isImpure {lut lut' : NodeLut} (h : Grows lut lut') {id : FieldId}
    (impure : isImpure lut id) : isImpure lut' id := by
  obtain ⟨n, found, impure⟩ := isImpure_iff.mp impure
  obtain ⟨n', found', -, -, -, same | ⟨changed, -⟩⟩ := h id n found
  · exact isImpure_iff.mpr ⟨n', found', same.trans impure⟩
  · exact isImpure_iff.mpr ⟨n', found', changed⟩

/-- What the inference knows of a field it has seen. -/
def Seen (P : Program) (lut : NodeLut) (site : Site) : Prop :=
  isImpure lut site.id ∨ ¬ site.Overridable ∧ (getPurity site.c site.cf = .ok .pure ∨
    ∃ body, site.cf.cfExpr = some body ∧
      ∀ s, Visible s body → Allowed P.types site.isCtor site.c (Recorded lut site.id) s)

theorem Seen.later {P : Program} {lut lut' : NodeLut} {site : Site} (h : Seen P lut site)
    (grows : Grows lut lut') : Seen P lut' site := by
  rcases h with impure | ⟨fixed, declared | ⟨body, found, allowed⟩⟩
  · exact Or.inl (grows.isImpure impure)
  · exact Or.inr ⟨fixed, Or.inl declared⟩
  · exact Or.inr ⟨fixed, Or.inr ⟨body, found, fun s visible =>
      (allowed s visible).mono fun _ recorded => recorded.later grows⟩⟩

/-- No exception but the two errors of the source. -/
abbrev Errors : Stop → Prop := Stop.Raised fun _ => False

theorem catchExit_ends {Q R : NodeLut → Prop} {x : Except Stop NodeLut}
    (h : Ends Q (Stop.Raised R) x) (imp : ∀ lut, R lut → Q lut) :
    Ends Q Errors (Program.catchExit x) := by
  match x, h with
  | .ok lut, h => exact h
  | .error (.exit lut), h => exact imp lut h
  | .error (.purityConflict _ _), _ => trivial
  | .error (.error _), _ => trivial
  | .error .outOfFuel, h => exact h.elim

/-- Tainting a field that is looked at. -/
theorem taint_seen {P : Program} {Q : NodeLut → Prop} {lut : NodeLut} {site : Site} {n : PurityNode}
    (h : Between P lut) (found : lut site.id = some n)
    (exposed : n.declared = .ok .pure → Exposed P site.id) :
    Ends (fun lut' => Between P lut' ∧ Grows lut lut' ∧ Seen P lut' site) (Stop.Raised Q)
      (taint P.fuel site.id lut) := by
  refine (taint_ends P.fuel lut site.id n h.valid found exposed (undecided_lt_fuel P lut)).mono ?_
  rintro lut' ⟨valid, taints, impure⟩
  exact ⟨⟨valid, h.spread.later taints⟩, taints.grows, Or.inl impure⟩

theorem classFields_mem_super {types : List TClass} {c s : TClass} {cf : TClassField}
    {f : TClass × TClassField} (member : (c, cf) ∈ allFields types) (super : c.clSuper = some s)
    (own : f ∈ classFields s) : f ∈ allFields types := by
  obtain ⟨t, inTypes, below⟩ := List.mem_flatMap.mp member
  obtain ⟨c', chain, field⟩ := List.mem_flatMap.mp below
  obtain ⟨cf', -, same⟩ := List.mem_map.mp field
  obtain ⟨rfl, rfl⟩ := Prod.mk.inj same
  have direct : s ∈ c'.supers := by
    obtain ⟨_, _, clSuper, _, _, _, _⟩ := c'
    obtain rfl : clSuper = some s := super
    simp [TClass.supers]
  refine List.mem_flatMap.mpr ⟨t, inTypes, List.mem_flatMap.mpr ⟨s, ?_, own⟩⟩
  rcases List.mem_cons.mp chain with rfl | chain
  · exact List.mem_cons_of_mem _ direct
  · exact List.mem_cons_of_mem _ (TClass.supers_trans chain direct)

/-- The body of a field with code of its own. -/
theorem body_seen {P : Program} {lut : NodeLut} {site : Site} {n : PurityNode} {body : TExpr}
    (h : Between P lut) (found : lut site.id = some n)
    (own : n.pnClass = site.c ∧ n.pnField = site.cf) (expr : site.cf.cfExpr = some body)
    (fixed : ¬ site.Overridable) (member : (site.c, site.cf) ∈ allFields P.types) :
    Ends (fun lut' => Between P lut' ∧ Grows lut lut' ∧ Seen P lut' site) Errors
      (Program.catchExit <| match n.pnPurity with
        | .impure => taintRaise P.fuel site.id lut
        | .pure => .error (.exit lut)
        | _ => FieldCheck.loop ⟨P.types, P.fuel, site.isCtor, site.c, site.id⟩ body lut) := by
  have node := h.valid _ n found
  have traversal (open' : n.pnPurity ≠ .impure) (notPure : n.pnPurity ≠ .pure) :
      Ends (fun lut' => Between P lut' ∧ Grows lut lut' ∧ Seen P lut' site) Errors
        (Program.catchExit <|
          FieldCheck.loop ⟨P.types, P.fuel, site.isCtor, site.c, site.id⟩ body lut) := by
    have start : During P site.id lut lut :=
      ⟨h.valid, h.spread, Grows.refl lut, n, found,
        fun pure => notPure (Except.ok.inj ((node.declared_of_purity open').symm.trans pure))⟩
    have within : FieldCheck.Within ⟨P.types, P.fuel, site.isCtor, site.c, site.id⟩ P :=
      ⟨rfl, rfl, fun c super f own => classFields_mem_super member super own⟩
    refine catchExit_ends ((loop_ends within body ?_ lut start).mono ?_) ?_
    · exact P.qualified _ member body expr
    · rintro lut' ⟨⟨during, grows⟩, cleared⟩
      exact ⟨⟨during.valid, during.spread⟩, grows, Or.inr ⟨fixed, Or.inr ⟨body, expr, cleared⟩⟩⟩
    · rintro lut' ⟨during, impure⟩
      exact ⟨⟨during.valid, during.spread⟩, during.grows, Or.inl impure⟩
  cases purity : n.pnPurity with
  | impure =>
    refine catchExit_ends (R := fun lut' => Between P lut' ∧ Grows lut lut' ∧ Seen P lut' site)
      ?_ fun _ seen => seen
    exact (taint_seen h found (node.exposed purity)).bind fun _ seen => seen
  | pure =>
    refine ⟨h, Grows.refl lut, Or.inr ⟨fixed, Or.inl ?_⟩⟩
    rw [← own.1, ← own.2, ← purity]
    exact node.declared_of_purity (by simp [purity])
  | maybePure | inferredPure | expectPure =>
    exact traversal (by simp [purity]) (by simp [purity])

/-- One field: it has been seen afterwards, and what was known before still holds. -/
theorem applyToField_ends {P : Program} {lut : NodeLut} {site : Site} (h : Between P lut)
    (member : (site.c, site.cf) ∈ allFields P.types)
    (ordered : site.isStatic = false → site.isCtor = false → site.cf ∈ site.c.clOrderedFields) :
    Ends (fun lut' => Between P lut' ∧ Grows lut lut' ∧ Seen P lut' site) Errors
      (P.applyToField site.isCtor site.isStatic site.c site.cf lut) := by
  unfold Program.applyToField
  refine (getNode_ends h.valid member).bind fun ⟨n, lut'⟩ ⟨valid, taints, found⟩ => ?_
  have between : Between P lut' := ⟨valid, h.spread.later taints⟩
  have after {x : Except Stop NodeLut} (rest : Ends (fun lut'' => Between P lut'' ∧
      Grows lut' lut'' ∧ Seen P lut'' site) Errors x) :
      Ends (fun lut'' => Between P lut'' ∧ Grows lut lut'' ∧ Seen P lut'' site) Errors x :=
    rest.mono fun lut'' ⟨between', grows, seen⟩ => ⟨between', taints.grows.trans grows, seen⟩
  have unlessPure (fixed : ¬ site.Overridable) :
    Ends (fun lut'' => Between P lut'' ∧ Grows lut' lut'' ∧ Seen P lut'' site)
      Errors (do
        if ← (isPure site.c site.cf).mapError Stop.error then return lut'
        else taint P.fuel (getFieldId site.c site.cf) lut') := by
    unfold isPure
    cases declared : getPurity site.c site.cf with
    | error e => trivial
    | ok p =>
      by_cases pure : p = .pure
      · subst pure
        exact ⟨between, Grows.refl _, Or.inr ⟨fixed, Or.inl declared⟩⟩
      · have : decide (p = .pure) = false := by simpa using pure
        simp only [bind, Except.bind, Except.mapError, Pure.pure, Except.pure, this,
          Bool.false_eq_true, if_false]
        refine taint_seen between found fun _ => ⟨(site.c, site.cf), member, rfl, ?_⟩
        refine Or.inr (Or.inr (Or.inr (Or.inr ?_)))
        rw [declared]
        exact fun same => pure (Except.ok.inj same)
  refine after ?_
  simp only
  split
  · next kind =>
    refine taint_seen between found fun _ => ⟨(site.c, site.cf), member, rfl, ?_⟩
    rcases kind with dynamic | var
    · exact Or.inr (Or.inl dynamic)
    · exact Or.inl var
  · split
    · next overridable =>
      obtain ⟨-, plain⟩ := overridable
      refine taint_seen between found fun _ => ⟨(site.c, site.cf), member, rfl, ?_⟩
      refine Or.inr (Or.inr (Or.inr (Or.inl (ordered ?_ ?_))))
      · simpa using fun static => plain (Or.inl static)
      · simpa using fun ctor => plain (Or.inr (Or.inl ctor))
    · next notKind notNormal =>
      have fixed : ¬ site.Overridable := by
        rintro (kind | normal)
        · exact notKind kind
        · exact notNormal normal
      split
      · exact unlessPure fixed
      · next body expr =>
        split
        · exact unlessPure fixed
        · next own =>
          refine body_seen between found ?_ expr fixed member
          have node := valid _ n found
          have sameClass := P.distinctClasses _ member _ node.field
            (congrArg Prod.fst node.key).symm
          have sameField := P.distinctFields _ member _ node.field sameClass
            (congrArg Prod.snd node.key).symm (by simp [expr]) (by simpa using own)
          exact ⟨sameClass.symm, sameField.symm⟩

/-- A fold of steps that each see something. -/
theorem grows_foldlM {ι : Type} {P : Program} {f : NodeLut → ι → Except Stop NodeLut} {l : List ι}
    {R : ι → NodeLut → Prop} {lut : NodeLut} (h : Between P lut)
    (stable : ∀ a lut lut', R a lut → Grows lut lut' → R a lut')
    (step : ∀ a ∈ l, ∀ lut, Between P lut →
      Ends (fun lut' => Between P lut' ∧ Grows lut lut' ∧ R a lut') Errors (f lut a)) :
    Ends (fun lut' => Between P lut' ∧ Grows lut lut' ∧ ∀ a ∈ l, R a lut') Errors
      (l.foldlM f lut) := by
  have whole : Ends (fun lut' => (Between P lut' ∧ Grows lut lut') ∧ (∀ a ∈ l, R a lut') ∧
      ∀ a, R a lut → R a lut') Errors (l.foldlM f lut) := by
    refine Ends.foldlM_forall ?_ ⟨h, Grows.refl lut⟩
    rintro a member lut' ⟨between, grows⟩
    refine (step a member lut' between).mono ?_
    rintro lut'' ⟨between', grows', here⟩
    exact ⟨⟨between', grows.trans grows'⟩, here, fun b seen => stable b _ _ seen grows'⟩
  exact whole.mono fun lut' ⟨⟨between, grows⟩, all, _⟩ => ⟨between, grows, all⟩

/-- One class. -/
theorem applyToClass_ends {P : Program} {lut : NodeLut} {c : TClass} (h : Between P lut)
    (inTypes : c ∈ P.types) :
    Ends (fun lut' => Between P lut' ∧ Grows lut lut' ∧ ∀ site ∈ classSites c, Seen P lut' site)
      Errors (P.applyToClass c lut) := by
  have group (isCtor isStatic : Bool) (fields : List TClassField) {lut : NodeLut}
      (between : Between P lut) (own : ∀ cf ∈ fields, (c, cf) ∈ classFields c)
      (ordered : isStatic = false → isCtor = false → ∀ cf ∈ fields, cf ∈ c.clOrderedFields) :
      Ends (fun lut' => Between P lut' ∧ Grows lut lut' ∧
          ∀ cf ∈ fields, Seen P lut' ⟨isCtor, isStatic, c, cf⟩) Errors
        (fields.foldlM (fun lut cf => P.applyToField isCtor isStatic c cf lut) lut) :=
    grows_foldlM between (fun _ _ _ seen grows => seen.later grows) fun cf member lut' between' =>
      @applyToField_ends P lut' ⟨isCtor, isStatic, c, cf⟩ between'
        (mem_allFields inTypes (own cf member)) fun static ctor => ordered static ctor cf member
  unfold Program.applyToClass
  refine (group false false c.clOrderedFields h ?_ fun _ _ _ member => member).bind ?_
  · intro cf member
    exact List.mem_map.mpr ⟨cf, by simp [member], rfl⟩
  rintro lut₁ ⟨between₁, grows₁, fields⟩
  refine (group false true c.clOrderedStatics between₁ ?_ nofun).bind ?_
  · intro cf member
    exact List.mem_map.mpr ⟨cf, by simp [member], rfl⟩
  rintro lut₂ ⟨between₂, grows₂, statics⟩
  refine (group true false c.clConstructor.toList between₂ ?_ nofun).mono ?_
  · intro cf member
    exact List.mem_map.mpr ⟨cf, by simp [Option.mem_toList.mp member], rfl⟩
  rintro lut₃ ⟨between₃, grows₃, constructor'⟩
  refine ⟨between₃, (grows₁.trans grows₂).trans grows₃, fun site member => ?_⟩
  rcases List.mem_append.mp member with member | member
  · rcases List.mem_append.mp member with member | member
    · obtain ⟨cf, inFields, rfl⟩ := List.mem_map.mp member
      exact (fields cf inFields).later (grows₂.trans grows₃)
    · obtain ⟨cf, inStatics, rfl⟩ := List.mem_map.mp member
      exact (statics cf inStatics).later grows₃
  · obtain ⟨cf, inConstructor, rfl⟩ := List.mem_map.mp member
    exact constructor' cf inConstructor

theorem mem_sites {P : Program} {site : Site} (member : site ∈ P.sites) :
    (site.c, site.cf) ∈ allFields P.types := by
  obtain ⟨c, inTypes, ofClass⟩ := List.mem_flatMap.mp member
  have own : site.c = c ∧ (c, site.cf) ∈ classFields c := by
    unfold classSites at ofClass
    unfold classFields
    simp only [List.mem_append, List.mem_map] at ofClass ⊢
    rcases ofClass with (⟨cf, field, rfl⟩ | ⟨cf, field, rfl⟩) | ⟨cf, field, rfl⟩
    · exact ⟨rfl, cf, Or.inl (Or.inl (Or.inr field)), rfl⟩
    · exact ⟨rfl, cf, Or.inl (Or.inr field), rfl⟩
    · exact ⟨rfl, cf, Or.inr field, rfl⟩
  rw [own.1]
  exact mem_allFields inTypes own.2

/-- All classes, from the empty table. -/
theorem types_ends (P : Program) :
    Ends (fun lut => Between P lut ∧ ∀ site ∈ P.sites, Seen P lut site) Errors
      (P.types.foldlM (fun lut c => P.applyToClass c lut) fun _ => none) := by
  have empty : Between P fun _ => none :=
    ⟨fun _ _ found => absurd found (Option.some_ne_none _).symm,
      fun _ _ found => absurd found (Option.some_ne_none _).symm⟩
  refine (grows_foldlM (R := fun c lut => ∀ site ∈ classSites c, Seen P lut site) empty
    (fun c lut lut' seen grows site member => (seen site member).later grows)
    fun c member lut between => applyToClass_ends between member).mono ?_
  rintro lut ⟨between, -, seen⟩
  refine ⟨between, fun site member => ?_⟩
  obtain ⟨c, inTypes, ofClass⟩ := List.mem_flatMap.mp member
  exact seen c inTypes site ofClass

end Haxe.Source.Optimization.Purity
