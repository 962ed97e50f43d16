import Mathlib.Logic.Function.Basic

/-!
# Constructors, patterns and what they match

The data of `matcher.ml`. Variables are their `v_id`. Expressions are the ones the
matcher itself builds or substitutes in: locals, constants, the sub-subjects of
`get_sub_subjects` (`tSub`), and any other pure expression, of which only the
children matter (`tPure` applied by `tApp`). How values are taken apart is a
parameter, `Semantics`.
-/

namespace Haxe.Source.Typing

/-- `pos`. -/
structure Pos where
  pfile : String
  pmin : Int
  pmax : Int
  deriving DecidableEq, Repr

def punion (p p2 : Pos) : Pos :=
  { pfile := p.pfile, pmin := min p.pmin p2.pmin, pmax := max p.pmax p2.pmax }

def nullPos : Pos := { pfile := "?", pmin := -1, pmax := -1 }

abbrev TVar := Nat

inductive TConstant where
  | tInt (i : Int)
  | tFloat (s : String)
  | tString (s : String)
  | tBool (b : Bool)
  | tNull
  | tThis
  | tSuper
  deriving DecidableEq, Repr

/-- A constructor of an enum; `efArgs` is the number of arguments in `ef_type`. -/
structure EnumField where
  efName : String
  efIndex : Nat
  efArgs : Nat
  deriving DecidableEq, Repr

inductive Constructor where
  | conConst (ct : TConstant)
  | conEnum (en : Nat) (ef : EnumField)
  | conStatic (c : Nat) (cfName : String)
  | conTypeExpr (mt : Nat)
  | conFields (fields : List String)
  | conArray (i : Nat)
  deriving DecidableEq, Repr

namespace Constructor

/-- `Constructor.equal`: two field patterns are equal whatever fields they list. -/
@[grind =] def equal : Constructor → Constructor → Bool
  | conConst ct1, conConst ct2 => ct1 = ct2
  | conEnum en1 ef1, conEnum en2 ef2 => en1 = en2 && ef1 = ef2
  | conStatic c1 cf1, conStatic c2 cf2 => c1 = c2 && cf1 = cf2
  | conTypeExpr mt1, conTypeExpr mt2 => mt1 = mt2
  | conFields _, conFields _ => true
  | conArray i1, conArray i2 => i1 = i2
  | _, _ => false

@[grind =] def arity : Constructor → Nat
  | conEnum _ ef => ef.efArgs
  | conConst _ => 0
  | conFields fields => fields.length
  | conArray i => i
  | conTypeExpr _ => 0
  | conStatic _ _ => 0

@[simp] theorem equal_refl (con : Constructor) : con.equal con = true := by
  cases con <;> simp [equal]

theorem equal_symm {con con' : Constructor} (same : con.equal con' = true) :
    con'.equal con = true := by
  cases con <;> cases con' <;> simp_all [equal]

theorem equal_trans {con con' con'' : Constructor} (same : con.equal con' = true)
    (same' : con'.equal con'' = true) : con.equal con'' = true := by
  cases con <;> cases con' <;> cases con'' <;> simp_all [equal]

/-- Apart from field patterns, equal constructors are the same constructor. -/
theorem eq_or_fields_of_equal {con con' : Constructor} (same : con.equal con' = true) :
    con = con' ∨ ∃ fields fields', con = conFields fields ∧ con' = conFields fields' := by
  cases con <;> cases con' <;> simp_all [equal]

end Constructor

inductive Texpr where
  | tLocal (v : TVar)
  | tConst (ct : TConstant)
  | tSub (e : Texpr) (con : Constructor) (i : Nat)
  | tPure (f : Nat)
  | tApp (f x : Texpr)
  deriving DecidableEq, Repr

namespace Texpr

/-- The `loop` of `compile_extractors`, which puts the subject in the place of a variable. -/
@[grind =] def subst (v : TVar) (subject : Texpr) : Texpr → Texpr
  | tLocal v' => if v' = v then subject else tLocal v'
  | tConst ct => tConst ct
  | tSub e con i => tSub (subst v subject e) con i
  | tPure f => tPure f
  | tApp f x => tApp (subst v subject f) (subst v subject x)

/-- The variables an expression reads. -/
@[grind =] def vars : Texpr → List TVar
  | tLocal v => [v]
  | tConst _ => []
  | tSub e _ _ => e.vars
  | tPure _ => []
  | tApp f x => f.vars ++ x.vars

end Texpr

inductive Pattern where
  | patConstructor (con : Constructor) (patterns : List Pattern) (p : Pos)
  | patVariable (v : TVar) (p : Pos)
  | patAny (p : Pos)
  | patBind (v : TVar) (pat : Pattern) (p : Pos)
  | patOr (pat1 pat2 : Pattern) (p : Pos)
  | patTuple (patterns : List Pattern) (p : Pos)
  | patExtractor (v : TVar) (e : Texpr) (pat : Pattern) (p : Pos)
  deriving Repr

namespace Pattern

def pos : Pattern → Pos
  | patConstructor _ _ p | patVariable _ p | patAny p | patBind _ _ p | patOr _ _ p
  | patTuple _ p | patExtractor _ _ _ p => p

mutual

/-- Number of nodes; the measure of the recursions over patterns. -/
@[grind =] def size : Pattern → Nat
  | patConstructor _ patterns _ => sizes patterns + 1
  | patVariable _ _ => 1
  | patAny _ => 1
  | patBind _ pat _ => pat.size + 1
  | patOr pat1 pat2 _ => pat1.size + pat2.size + 1
  | patTuple patterns _ => sizes patterns + 1
  | patExtractor _ _ pat _ => pat.size + 1

@[grind =] def sizes : List Pattern → Nat
  | [] => 0
  | pat :: pats => pat.size + sizes pats

end

theorem size_pos (pat : Pattern) : 0 < pat.size := by
  cases pat <;> simp [size]

@[simp] theorem sizes_append (pats pats' : List Pattern) :
    sizes (pats ++ pats') = sizes pats + sizes pats' := by
  induction pats with
  | nil => simp [sizes]
  | cons pat pats ih => simp [sizes, ih, Nat.add_assoc]

end Pattern

/-- How values are read. `view con v` holds the sub-values when `con` made `v`. -/
structure Semantics (Value : Type) where
  view : Constructor → Value → Option (List Value)
  view_arity : ∀ con v subs, view con v = some subs → subs.length = con.arity
  sub : Constructor → Nat → Value → Value
  view_sub : ∀ con v subs, view con v = some subs → ∀ i (bound : i < subs.length),
    sub con i v = subs[i]
  const : TConstant → Value
  pure : Nat → Value
  app : Value → Value → Value
  truth : Value → Bool

variable {Value : Type}

abbrev Env (Value : Type) := TVar → Value

abbrev Bindings (Value : Type) := List (TVar × Value)

namespace Semantics

variable (S : Semantics Value)

@[grind =] def eval (ρ : Env Value) : Texpr → Value
  | .tLocal v => ρ v
  | .tConst ct => S.const ct
  | .tSub e con i => S.sub con i (eval ρ e)
  | .tPure f => S.pure f
  | .tApp f x => S.app (eval ρ f) (eval ρ x)

/-- All combinations of a binding of the first list with one of the second, in order. -/
def product (first second : List (Bindings Value)) : List (Bindings Value) :=
  first.flatMap fun β => second.map (β ++ ·)

mutual

/-- The ways a pattern matches the values of the subjects it covers: one subject, or
as many as a tuple has components. The alternatives of an or-pattern come in order. -/
@[grind =] def matchPat (ρ : Env Value) : Pattern → List Value → List (Bindings Value)
  | .patConstructor con patterns _, [v] =>
    match S.view con v with
    | some subs => matchPats ρ patterns subs
    | none => []
  | .patVariable x _, [v] => [[(x, v)]]
  | .patAny _, [_] => [[]]
  | .patBind x pat _, [v] => (matchPat ρ pat [v]).map ((x, v) :: ·)
  | .patOr pat1 pat2 _, seg => matchPat ρ pat1 seg ++ matchPat ρ pat2 seg
  | .patTuple patterns _, seg => matchPats ρ patterns seg
  | .patExtractor x e pat _, [v] => matchPat ρ pat [S.eval (Function.update ρ x v) e]
  | _, _ => []

@[grind =] def matchPats (ρ : Env Value) : List Pattern → List Value → List (Bindings Value)
  | [], [] => [[]]
  | pat :: pats, v :: vs => product (matchPat ρ pat [v]) (matchPats ρ pats vs)
  | _, _ => []

end

/-- A row of patterns against the values of its columns. -/
@[grind =] def matchRow (ρ : Env Value) : List Pattern → List (List Value) → List (Bindings Value)
  | [], [] => [[]]
  | pat :: pats, seg :: segs => product (S.matchPat ρ pat seg) (matchRow ρ pats segs)
  | _, _ => []

end Semantics

/-- The types of subjects and sub-subjects: which constructors a type has and the types
of their arguments, the types of variables, and from these the types of expressions. -/
structure Signature (Ty : Type) where
  args : Ty → Constructor → Option (List Ty)
  arity : ∀ t con ts, args t con = some ts → ts.length = con.arity
  vtype : TVar → Ty
  etype : (TVar → Ty) → Texpr → Ty
  etype_local : ∀ Γ v, etype Γ (.tLocal v) = Γ v
  etype_congr : ∀ Γ Γ' e, (∀ v ∈ e.vars, Γ v = Γ' v) → etype Γ e = etype Γ' e
  etype_subst : ∀ Γ v subject e,
    etype Γ (Texpr.subst v subject e) = etype (Function.update Γ v (etype Γ subject)) e

/-- The type of a column: of one subject, or the `fake_tuple_type` of several. -/
inductive Column (Ty : Type) where
  | one (t : Ty)
  | tuple (ts : List Ty)

namespace Signature

variable {Ty : Type} (sig : Signature Ty)

mutual

/-- `make` rejects binding a tuple, and turns `_` for one into a tuple of wildcards. -/
@[grind =] def WellTyped : Column Ty → Pattern → Prop
  | column, .patConstructor con patterns _ =>
    ∃ t ts, column = .one t ∧ sig.args t con = some ts ∧ AllTyped ts patterns
  | column, .patVariable _ _ => ∃ t, column = .one t
  | column, .patAny _ => ∃ t, column = .one t
  | column, .patBind _ pat _ => ∃ t, column = .one t ∧ WellTyped (.one t) pat
  | column, .patOr pat1 pat2 _ => WellTyped column pat1 ∧ WellTyped column pat2
  | column, .patTuple patterns _ => ∃ ts, column = .tuple ts ∧ AllTyped ts patterns
  | column, .patExtractor v e pat _ =>
    ∃ t, column = .one t ∧ WellTyped (.one (sig.etype (Function.update sig.vtype v t) e)) pat

@[grind =] def AllTyped : List Ty → List Pattern → Prop
  | ts, [] => ts = []
  | ts, pat :: pats => ∃ t rest, ts = t :: rest ∧ WellTyped (.one t) pat ∧ AllTyped rest pats

end

@[grind =] def RowTyped : List (Column Ty) → List Pattern → Prop
  | columns, [] => columns = []
  | columns, pat :: pats =>
    ∃ column rest, columns = column :: rest ∧ sig.WellTyped column pat ∧ RowTyped rest pats

/-- All field patterns of one type list the same fields. -/
def UniformFields : Prop :=
  ∀ t fields fields' ts ts', sig.args t (.conFields fields) = some ts →
    sig.args t (.conFields fields') = some ts' → fields = fields'

/-- Then constructors of one type that `equal` identifies are the same. -/
theorem UniformFields.eq_of_equal {sig : Signature Ty} (uniform : sig.UniformFields) {t : Ty}
    {con con' : Constructor} {ts ts' : List Ty} (typed : sig.args t con = some ts)
    (typed' : sig.args t con' = some ts') (same : con.equal con' = true) : con = con' := by
  rcases Constructor.eq_or_fields_of_equal same with rfl | ⟨fields, fields', rfl, rfl⟩
  · rfl
  · rw [uniform t fields fields' ts ts' typed typed']

end Signature

/-- No value was made by two constructors of one type, `null` among them. -/
def Semantics.Disjoint {Ty : Type} (S : Semantics Value) (sig : Signature Ty) : Prop :=
  ∀ t con con', (sig.args t con).isSome ∨ con = .conConst .tNull →
    (sig.args t con').isSome ∨ con' = .conConst .tNull →
      ∀ v, (S.view con v).isSome → (S.view con' v).isSome → con.equal con' = true

theorem Semantics.Disjoint.unseen {Ty : Type} {S : Semantics Value} {sig : Signature Ty}
    (disjoint : S.Disjoint sig) {t : Ty} {con con' : Constructor}
    (tested : (sig.args t con).isSome ∨ con = .conConst .tNull)
    (tested' : (sig.args t con').isSome ∨ con' = .conConst .tNull)
    (different : con.equal con' = false) {v : Value} (seen : (S.view con v).isSome) :
    S.view con' v = none := by
  cases seen' : S.view con' v with
  | none => rfl
  | some subs => simp [disjoint t con con' tested tested' v seen (by simp [seen'])] at different

end Haxe.Source.Typing
