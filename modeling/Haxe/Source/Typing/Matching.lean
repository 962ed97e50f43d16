import Haxe.Source.Typing.Pattern

/-!
# Rows that match

Whether a row of patterns matches a vector of values, one rule for each pattern, and
how typed rows split at an `append`.
-/

namespace Haxe.Source.Typing
open Pattern

variable {Value Ty : Type}

namespace Semantics

attribute [local simp] matchPat matchPats matchRow

theorem product_ne_nil {first second : List (Bindings Value)} :
    product first second ≠ [] ↔ first ≠ [] ∧ second ≠ [] := by
  cases first <;> cases second <;> simp [product]

variable (S : Semantics Value) (ρ : Env Value)

/-- One value on its own in each column. -/
abbrev singles (vs : List Value) : List (List Value) := vs.map fun v => [v]

def Matches (pats : List Pattern) (segs : List (List Value)) : Prop :=
  S.matchRow ρ pats segs ≠ []

theorem matchPats_eq_matchRow (pats : List Pattern) (vs : List Value) :
    S.matchPats ρ pats vs = S.matchRow ρ pats (singles vs) := by
  induction pats generalizing vs with
  | nil => cases vs <;> simp
  | cons pat pats ih => cases vs <;> simp [ih]

variable {S ρ}

@[simp] theorem matches_nil {segs : List (List Value)} : S.Matches ρ [] segs ↔ segs = [] := by
  cases segs <;> simp [Matches]

theorem matches_cons_cons {pat : Pattern} {pats : List Pattern} {seg : List Value}
    {segs : List (List Value)} :
    S.Matches ρ (pat :: pats) (seg :: segs) ↔
      S.matchPat ρ pat seg ≠ [] ∧ S.Matches ρ pats segs := by
  simp [Matches, product_ne_nil]

theorem matches_cons {pat : Pattern} {pats : List Pattern} {segs : List (List Value)} :
    S.Matches ρ (pat :: pats) segs ↔
      ∃ seg rest, segs = seg :: rest ∧ S.matchPat ρ pat seg ≠ [] ∧ S.Matches ρ pats rest := by
  constructor
  · intro matched
    cases segs with
    | nil => simp [Matches] at matched
    | cons seg rest => exact ⟨seg, rest, rfl, matches_cons_cons.mp matched⟩
  · rintro ⟨seg, rest, rfl, both⟩
    exact matches_cons_cons.mpr both

theorem Matches.length_eq {pats : List Pattern} {segs : List (List Value)}
    (matched : S.Matches ρ pats segs) : segs.length = pats.length := by
  induction pats generalizing segs with
  | nil => simpa using matched
  | cons pat pats ih =>
    obtain ⟨seg, rest, rfl, -, tail⟩ := matches_cons.mp matched
    simp [ih tail]

theorem matches_append {pats pats' : List Pattern} {segs segs' : List (List Value)}
    (len : segs.length = pats.length) :
    S.Matches ρ (pats ++ pats') (segs ++ segs') ↔
      S.Matches ρ pats segs ∧ S.Matches ρ pats' segs' := by
  induction pats generalizing segs with
  | nil => simp [List.length_eq_zero_iff.mp (by simpa using len)]
  | cons pat pats ih =>
    cases segs with
    | nil => simp at len
    | cons seg segs =>
      simp [matches_cons_cons, ih (by simpa using len), and_assoc]

/-! ## One rule for each pattern -/

theorem matchPat_any {p : Pos} {seg : List Value} :
    S.matchPat ρ (patAny p) seg ≠ [] ↔ ∃ v, seg = [v] := by
  rcases seg with _ | ⟨v, _ | ⟨w, seg⟩⟩ <;> simp

theorem matchPat_variable {x : TVar} {p : Pos} {seg : List Value} :
    S.matchPat ρ (patVariable x p) seg ≠ [] ↔ ∃ v, seg = [v] := by
  rcases seg with _ | ⟨v, _ | ⟨w, seg⟩⟩ <;> simp

theorem matchPat_bind {x : TVar} {pat : Pattern} {p : Pos} {seg : List Value} :
    S.matchPat ρ (patBind x pat p) seg ≠ [] ↔
      (∃ v, seg = [v]) ∧ S.matchPat ρ pat seg ≠ [] := by
  rcases seg with _ | ⟨v, _ | ⟨w, seg⟩⟩ <;> simp

theorem matchPat_or {pat1 pat2 : Pattern} {p : Pos} {seg : List Value} :
    S.matchPat ρ (patOr pat1 pat2 p) seg ≠ [] ↔
      S.matchPat ρ pat1 seg ≠ [] ∨ S.matchPat ρ pat2 seg ≠ [] := by
  simp only [matchPat, ne_eq, List.append_eq_nil_iff]
  exact Decidable.not_and_iff_not_or_not

theorem matchPat_tuple {patterns : List Pattern} {p : Pos} {seg : List Value} :
    S.matchPat ρ (patTuple patterns p) seg ≠ [] ↔ S.Matches ρ patterns (singles seg) := by
  simp [matchPats_eq_matchRow, Matches]

theorem matchPat_constructor {con : Constructor} {patterns : List Pattern} {p : Pos}
    {seg : List Value} :
    S.matchPat ρ (patConstructor con patterns p) seg ≠ [] ↔
      ∃ v subs, seg = [v] ∧ S.view con v = some subs ∧ S.Matches ρ patterns (singles subs) := by
  rcases seg with _ | ⟨v, _ | ⟨w, seg⟩⟩
  · simp
  · cases seen : S.view con v <;> simp [seen, matchPats_eq_matchRow, Matches]
  · simp

end Semantics

namespace Signature

attribute [local simp] WellTyped AllTyped RowTyped

variable {sig : Signature Ty}

@[simp] theorem rowTyped_nil {columns : List (Column Ty)} :
    sig.RowTyped columns [] ↔ columns = [] := by simp [RowTyped]

@[simp] theorem rowTyped_cons {column : Column Ty} {columns : List (Column Ty)} {pat : Pattern}
    {pats : List Pattern} :
    sig.RowTyped (column :: columns) (pat :: pats) ↔
      sig.WellTyped column pat ∧ sig.RowTyped columns pats := by
  constructor
  · rintro ⟨column', rest, same, head, tail⟩
    obtain ⟨rfl, rfl⟩ := List.cons.inj same
    exact ⟨head, tail⟩
  · exact fun ⟨head, tail⟩ => ⟨column, columns, rfl, head, tail⟩

@[simp] theorem allTyped_nil {ts : List Ty} : sig.AllTyped ts [] ↔ ts = [] := by simp [AllTyped]

@[simp] theorem allTyped_cons {t : Ty} {ts : List Ty} {pat : Pattern} {pats : List Pattern} :
    sig.AllTyped (t :: ts) (pat :: pats) ↔ sig.WellTyped (.one t) pat ∧ sig.AllTyped ts pats := by
  constructor
  · intro typed
    simp only [AllTyped] at typed
    obtain ⟨t', rest, same, head, tail⟩ := typed
    obtain ⟨rfl, rfl⟩ := List.cons.inj same
    exact ⟨head, tail⟩
  · intro typed
    simp only [AllTyped]
    exact ⟨t, ts, rfl, typed⟩

@[simp] theorem wellTyped_constructor {t : Ty} {con : Constructor} {patterns : List Pattern}
    {p : Pos} : sig.WellTyped (.one t) (patConstructor con patterns p) ↔
      ∃ ts, sig.args t con = some ts ∧ sig.AllTyped ts patterns := by
  simp [WellTyped]

@[simp] theorem wellTyped_any {t : Ty} {p : Pos} : sig.WellTyped (.one t) (patAny p) := by
  simp [WellTyped]

@[simp] theorem wellTyped_variable {t : Ty} {v : TVar} {p : Pos} :
    sig.WellTyped (.one t) (patVariable v p) := by
  simp [WellTyped]

@[simp] theorem wellTyped_bind {t : Ty} {v : TVar} {pat : Pattern} {p : Pos} :
    sig.WellTyped (.one t) (patBind v pat p) ↔ sig.WellTyped (.one t) pat := by
  simp [WellTyped]

@[simp] theorem wellTyped_or {column : Column Ty} {pat1 pat2 : Pattern} {p : Pos} :
    sig.WellTyped column (patOr pat1 pat2 p) ↔
      sig.WellTyped column pat1 ∧ sig.WellTyped column pat2 := by
  simp [WellTyped]

@[simp] theorem wellTyped_tuple {ts : List Ty} {patterns : List Pattern} {p : Pos} :
    sig.WellTyped (.tuple ts) (patTuple patterns p) ↔ sig.AllTyped ts patterns := by
  simp [WellTyped]

theorem rowTyped_of_allTyped {ts : List Ty} {pats : List Pattern}
    (typed : sig.AllTyped ts pats) : sig.RowTyped (ts.map .one) pats := by
  induction pats generalizing ts with
  | nil => simp only [AllTyped] at typed; simp [RowTyped, typed]
  | cons pat pats ih =>
    simp only [AllTyped] at typed
    obtain ⟨t, rest, rfl, head, tail⟩ := typed
    exact ⟨.one t, rest.map .one, rfl, head, ih tail⟩

theorem RowTyped.append {columns columns' : List (Column Ty)} {pats pats' : List Pattern}
    (typed : sig.RowTyped columns pats) (typed' : sig.RowTyped columns' pats') :
    sig.RowTyped (columns ++ columns') (pats ++ pats') := by
  induction pats generalizing columns with
  | nil => simp only [RowTyped] at typed; simpa [typed] using typed'
  | cons pat pats ih =>
    obtain ⟨column, rest, rfl, head, tail⟩ := typed
    exact ⟨column, rest ++ columns', rfl, head, ih tail⟩

theorem RowTyped.length_eq {columns : List (Column Ty)} {pats : List Pattern}
    (typed : sig.RowTyped columns pats) : pats.length = columns.length := by
  induction pats generalizing columns with
  | nil => simp only [RowTyped] at typed; simp [typed]
  | cons pat pats ih =>
    obtain ⟨column, rest, rfl, -, tail⟩ := typed
    simp [ih tail]

/-- A row for a first column has a first pattern. -/
theorem RowTyped.exists_cons {column : Column Ty} {columns : List (Column Ty)}
    {pats : List Pattern} (typed : sig.RowTyped (column :: columns) pats) :
    ∃ pat rest, pats = pat :: rest ∧ sig.WellTyped column pat ∧ sig.RowTyped columns rest := by
  cases pats with
  | nil => simp [RowTyped] at typed
  | cons pat rest => exact ⟨pat, rest, rfl, rowTyped_cons.mp typed⟩

theorem RowTyped.ne_nil {column : Column Ty} {columns : List (Column Ty)} {pats : List Pattern}
    (typed : sig.RowTyped (column :: columns) pats) : pats ≠ [] := by
  obtain ⟨pat, rest, rfl, -, -⟩ := typed.exists_cons
  simp

theorem allTyped_replicate_any (ts : List Ty) {p : Pos} {n : Nat} (len : ts.length = n) :
    sig.AllTyped ts (List.replicate n (patAny p)) := by
  subst len
  induction ts with
  | nil => simp
  | cons t ts ih => exact ⟨t, ts, rfl, ⟨t, rfl⟩, ih⟩

theorem AllTyped.length_eq {ts : List Ty} {pats : List Pattern}
    (typed : sig.AllTyped ts pats) : pats.length = ts.length := by
  simpa using (rowTyped_of_allTyped typed).length_eq

end Signature

end Haxe.Source.Typing

/-!
## Run-time values

The values of the language as far as a switch can look into them, and the constructors
that made them. Static fields, other expressions and application are parameters.
-/

namespace Haxe.Source.Typing

inductive HxValue where
  | null
  | bool (b : Bool)
  | int (i : Int)
  | string (s : String)
  | enum (en : Nat) (index : Nat) (args : List HxValue)
  | array (elements : List HxValue)
  | object (fields : List (String × HxValue))
  | type (mt : Nat)

namespace HxValue

/-- Field access; a missing field reads as `null`. -/
def field (fields : List (String × HxValue)) (name : String) : HxValue :=
  (fields.lookup name).getD null

@[grind =] def view (isStatic : Nat → String → HxValue → Bool) :
    Constructor → HxValue → Option (List HxValue)
  | .conConst .tNull, null => some []
  | .conConst (.tBool b), bool b' => if b = b' then some [] else none
  | .conConst (.tInt i), int i' => if i = i' then some [] else none
  | .conConst (.tString s), string s' => if s = s' then some [] else none
  | .conEnum en ef, enum en' index args =>
    if en = en' ∧ ef.efIndex = index ∧ args.length = ef.efArgs then some args else none
  | .conStatic c cf, v => if isStatic c cf v then some [] else none
  | .conTypeExpr mt, type mt' => if mt = mt' then some [] else none
  | .conFields names, object fields => some (names.map (field fields))
  | .conArray i, array elements => if elements.length = i then some elements else none
  | _, _ => none

theorem view_arity (isStatic : Nat → String → HxValue → Bool) (con : Constructor) (v : HxValue)
    (subs : List HxValue) (seen : view isStatic con v = some subs) :
    subs.length = con.arity := by
  revert seen
  fun_cases view isStatic con v <;> intro seen <;> simp_all [Constructor.arity] <;> grind

def semantics (isStatic : Nat → String → HxValue → Bool) (pure : Nat → HxValue)
    (app : HxValue → HxValue → HxValue) : Semantics HxValue where
  view := view isStatic
  view_arity := view_arity isStatic
  sub con i v := ((view isStatic con v).getD [])[i]?.getD null
  view_sub con v subs seen i bound := by simp [seen, List.getElem?_eq_getElem bound]
  const
    | .tBool b => bool b
    | .tInt i => int i
    | .tString s => string s
    | _ => null
  pure := pure
  app := app
  truth
    | bool b => b
    | _ => false

end HxValue

/-- A signature in which every expression but a variable has the type `other`. -/
@[grind =] def Signature.ofArgs {Ty : Type} (args : Ty → Constructor → Option (List Ty))
    (arity : ∀ t con ts, args t con = some ts → ts.length = con.arity) (vtype : TVar → Ty)
    (other : Ty) : Signature Ty where
  args := args
  arity := arity
  vtype := vtype
  etype Γ
    | .tLocal v => Γ v
    | _ => other
  etype_local _ _ := rfl
  etype_congr Γ Γ' e same := by cases e <;> simp_all [Texpr.vars]
  etype_subst Γ v subject e := by
    cases e with
    | tLocal v' => by_cases same : v' = v <;> simp [Texpr.subst, same]
    | _ => rfl

end Haxe.Source.Typing
