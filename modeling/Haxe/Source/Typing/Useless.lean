import Haxe.Source.Typing.Pattern
import Haxe.Source.Typing.Matching

/-!
# `Useless`: the checker for unused patterns

The loops of the source push a row with a bind or an alternative stripped off back
onto the matrix and meet it again next; here `specializeHead` lists what comes out
of one head pattern. `none` is a failed assertion (`die`) or a length mismatch.
-/

namespace Haxe.Source.Typing.UselessPatterns
open Pattern Constructor

/-- The type `useless`. -/
inductive Useless where
  | false
  | pos (p : Pos)
  | true
  deriving DecidableEq, Repr

/-! ## The `U` part -/

@[grind =] def specializeHead (isTuple : Bool) (con : Constructor) : Pattern → List (List Pattern)
  | patConstructor con' patterns1 _ =>
    if !isTuple && con.equal con' then [patterns1] else []
  | patTuple patterns1 _ => if isTuple then [patterns1] else []
  | patAny p => [List.replicate con.arity (patAny p)]
  | patBind _ pat1 _ => specializeHead isTuple con pat1
  | _ => []

def specialize (isTuple : Bool) (con : Constructor) (pM : List (List Pattern)) :
    List (List Pattern) :=
  pM.flatMap fun
    | pat :: patterns2 => (specializeHead isTuple con pat).map (· ++ patterns2)
    | [] => []

def default (pM : List (List Pattern)) : List (List Pattern) :=
  pM.filterMap fun
    | patVariable _ _ :: patterns | patAny _ :: patterns => some patterns
    | _ => none

/-- The constructor that `u` and `u'` pass for tuples. -/
def tupleCon : Constructor := conConst .tNull

@[grind =] def u (pM : List (List Pattern)) : List Pattern → Bool
  | [] => pM.isEmpty
  | patConstructor con patterns _ :: ql => u (specialize false con pM) (patterns ++ ql)
  | patTuple patterns _ :: ql => u (specialize true tupleCon pM) (patterns ++ ql)
  | patVariable _ _ :: ql | patAny _ :: ql => u (default pM) ql
  | patOr pat1 pat2 _ :: ql => u pM (pat1 :: ql) || u pM (pat2 :: ql)
  | patBind _ pat1 _ :: ql => u pM (pat1 :: ql)
  | patExtractor _ _ _ _ :: _ => true
termination_by q => sizes q
decreasing_by all_goals (simp only [sizes, size, sizes_append]; omega)

/-! ## The `U'` part -/

/-- `transfer_column`: rows that are empty in the source are dropped from both sides. -/
def transferColumn : List (List Pattern) → List (List Pattern) →
    Option (List (List Pattern) × List (List Pattern))
  | [], [] => some ([], [])
  | (pat :: patterns) :: source, patterns2 :: target => do
    let (source, target) ← transferColumn source target
    some (patterns :: source, (pat :: patterns2) :: target)
  | [] :: source, _ :: target => transferColumn source target
  | _, _ => none

def copy (p : List (List Pattern)) : List (List Pattern) := p.map fun _ => []

/-- As `specializeHead`, but through variables and both sides of or-patterns. -/
@[grind =] def specializeHead' (isTuple : Bool) (con : Constructor) : Pattern → List (List Pattern)
  | patConstructor con' patterns1 _ =>
    if !isTuple && con.equal con' then [patterns1] else []
  | patTuple patterns1 _ => if isTuple then [patterns1] else []
  | patVariable _ p | patAny p => [List.replicate con.arity (patAny p)]
  | patOr pat1 pat2 _ => specializeHead' isTuple con pat1 ++ specializeHead' isTuple con pat2
  | patBind _ pat1 _ => specializeHead' isTuple con pat1
  | _ => []

abbrev Matrices := List (List Pattern) × List (List Pattern) × List (List Pattern)

/-- `specialize'`: the rows of `Q` and `R` go along with the rows of `P` they belong to. -/
def specialize' (isTuple : Bool) (con : Constructor) : List (List Pattern) →
    List (List Pattern) → List (List Pattern) → Option Matrices
  | [], _, _ => some ([], [], [])
  | p1 :: pM, q1 :: qM, r1 :: rM => do
    let heads := match p1 with
      | pat :: patterns2 => (specializeHead' isTuple con pat).map (· ++ patterns2)
      | [] => []
    let (pM, qM, rM) ← specialize' isTuple con pM qM rM
    some (heads ++ pM, heads.map (fun _ => q1) ++ qM, heads.map (fun _ => r1) ++ rM)
  | _, _, _ => none

def combine (et1 et2 : Useless × Pos) : Useless :=
  match et1.1, et2.1 with
  | .true, .true => .true
  | .false, .false => .false
  | .true, .false => .pos et2.2
  | .false, .true => .pos et1.2
  | .true, .pos p => .pos p
  | .pos p, .true => .pos p
  | .false, .pos _ => .pos et1.2
  | .pos p, _ => .pos p

/-- `process_row`: column `i` of a row, and the rest of the row before `q`. -/
def processRow (i : Nat) (l q : List Pattern) : Option (Pattern × List Pattern) := do
  let x ← l[i]?
  some (x, l.eraseIdx i ++ q)

/-- The `fold_left2` over `rM` and `qM` with `process_row`. -/
def processRows (i : Nat) : List (List Pattern) → List (List Pattern) →
    Option (List (List Pattern) × List (List Pattern))
  | [], [] => some ([], [])
  | r :: rM, q :: qM => do
    let (x, l) ← processRow i r q
    let (col, mat) ← processRows i rM qM
    some ([x] :: col, l :: mat)
  | _, _ => none

mutual

@[grind =] def u' (pM qM rM : List (List Pattern)) (p q r : List Pattern) : Option Useless :=
  match p with
  | [] =>
    if r.isEmpty then some (if u qM q then .true else .false)
    else uColumns qM rM q r r 0 .true
  | patConstructor con patterns _ :: pl => do
    let (pM, qM, rM) ← specialize' false con pM qM rM
    u' pM qM rM (patterns ++ pl) q r
  | patTuple patterns _ :: pl => do
    let (pM, qM, rM) ← specialize' true tupleCon pM qM rM
    u' pM qM rM (patterns ++ pl) q r
  | patAny pos :: pl => do
    let (pM, qM) ← transferColumn pM qM
    u' pM qM rM pl (patAny pos :: q) r
  | patVariable v pos :: pl => do
    let (pM, qM) ← transferColumn pM qM
    u' pM qM rM pl (patVariable v pos :: q) r
  | patOr pat1 pat2 pos :: pl => do
    let (pM, rM) ← transferColumn pM rM
    u' pM qM rM pl q (patOr pat1 pat2 pos :: r)
  | patBind _ pat1 _ :: pl => u' pM qM rM (pat1 :: pl) q r
  | patExtractor _ _ _ _ :: _ => some .true
termination_by (sizes p + sizes r, sizes p + 1)
decreasing_by all_goals (simp_wf; simp only [sizes, size]; omega)

/-- The fold over `r`; `rest` is what remains from column `i` on. -/
def uColumns (qM rM : List (List Pattern)) (q r rest : List Pattern) (i : Nat) (et : Useless) :
    Option Useless :=
  match rest with
  | [] => some et
  | patOr pat1 pat2 _ :: rest => do
    let (col, mat) ← processRows i rM qM
    let (_, l) ← processRow i r q
    let et1 ← u' col mat (copy mat) [pat1] l []
    let et2 ← u' (col ++ [[pat1]]) (mat ++ [l]) (copy (mat ++ [l])) [pat2] l []
    let et3 := combine (et1, pat1.pos) (et2, pat2.pos)
    let p := punion pat1.pos pat2.pos
    uColumns qM rM q r rest (i + 1) (combine (et, p) (et3, p))
  | _ :: _ => none
termination_by (sizes rest, 0)
decreasing_by all_goals (simp only [sizes, size]; omega)

end

/-! ## The warnings -/

/-- A case of the switch: its own position and whether it has a guard. -/
structure CaseInfo where
  casePos : Pos
  guarded : Bool
  deriving DecidableEq, Repr

abbrev CaseRow := CaseInfo × List Pattern

@[grind =] def checkCase (p : List CaseRow) (case : CaseRow) : Option (List (String × Pos)) := do
  let pM := p.map Prod.snd
  match ← u' pM (copy pM) (copy pM) case.2 [] [] with
  | .false => some [("This case is unused", case.1.casePos)]
  | .pos p => some [("This pattern is unused", p)]
  | .true => some []

/-- The fold of `check`, with the unguarded cases so far. -/
def checkFrom (acc : List CaseRow) : List CaseRow → Option (List (String × Pos))
  | [] => some []
  | case :: cases => do
    let warnings ← checkCase acc case
    let rest ← checkFrom (if case.1.guarded then acc else acc ++ [case]) cases
    some (warnings ++ rest)

def check (cases : List CaseRow) : Option (List (String × Pos)) := checkFrom [] cases

end Haxe.Source.Typing.UselessPatterns

/-!
## What the checker keeps of a matrix

A row of a specialized matrix comes from a row that matches the same values, and so
does a row of a default matrix. From this `u` is sound.
-/

namespace Haxe.Source.Typing.UselessPatterns
open Pattern Semantics Signature

variable {Value Ty : Type} {S : Semantics Value} {ρ : Env Value} {sig : Signature Ty}

/-- `con`, or the tuple, takes a column of type `column` apart into columns of types `ts`. -/
@[grind =] def Splits (sig : Signature Ty) (isTuple : Bool) (con : Constructor) (column : Column Ty)
    (ts : List Ty) : Prop :=
  if isTuple then column = .tuple ts else ∃ t, column = .one t ∧ sig.args t con = some ts

/-- The values `subs` that the values `seg` of such a column are taken apart into. -/
def Opens (S : Semantics Value) (isTuple : Bool) (con : Constructor) (seg subs : List Value) :
    Prop :=
  if isTuple then subs = seg else ∃ v, seg = [v] ∧ S.view con v = some subs

theorem mem_specializeHead' {isTuple : Bool} {con : Constructor} {pat : Pattern}
    {head : List Pattern} (member : head ∈ specializeHead isTuple con pat) :
    head ∈ specializeHead' isTuple con pat := by
  induction pat using specializeHead.induct isTuple con <;>
    simp_all [specializeHead, specializeHead']

/-- Specializing a pattern is sound: what comes out is typed as the sub-columns, and
matches only the parts of values that the pattern matches. -/
theorem specializeHead'_sound (uniform : sig.UniformFields) {isTuple : Bool}
    {con : Constructor} {column : Column Ty} {ts : List Ty}
    (splits : Splits sig isTuple con column ts) (pat : Pattern)
    (typed : sig.WellTyped column pat) {head : List Pattern}
    (member : head ∈ specializeHead' isTuple con pat) :
    sig.AllTyped ts head ∧
      ∀ seg subs, Opens S isTuple con seg subs → S.Matches ρ head (singles subs) →
        S.matchPat ρ pat seg ≠ [] := by
  match pat with
  | patConstructor con' patterns1 p =>
    obtain ⟨t, ts', rfl, args, allTyped⟩ := typed
    cases isTuple with
    | true => simp [specializeHead'] at member
    | false =>
      obtain ⟨t', same, args'⟩ := splits
      obtain rfl := Column.one.inj same
      simp only [specializeHead', Bool.not_false, Bool.true_and] at member
      split at member
      · rename_i equal
        obtain rfl := uniform.eq_of_equal args' args equal
        obtain rfl := Option.some.inj (args'.symm.trans args)
        obtain rfl := List.mem_singleton.mp member
        refine ⟨allTyped, ?_⟩
        rintro seg subs ⟨v, rfl, seen⟩ matched
        exact matchPat_constructor.mpr ⟨v, subs, rfl, seen, matched⟩
      · simp at member
  | patTuple patterns1 p =>
    obtain ⟨ts', rfl, allTyped⟩ := typed
    cases isTuple with
    | true =>
      obtain rfl := Column.tuple.inj splits
      obtain rfl : head = patterns1 := by simpa [specializeHead'] using member
      exact ⟨allTyped, fun seg subs opens matched =>
        matchPat_tuple.mpr (by rwa [show subs = seg from opens] at matched)⟩
    | false => simp [specializeHead'] at member
  | patVariable x p | patAny p =>
    obtain ⟨t, rfl⟩ := typed
    obtain rfl : head = List.replicate con.arity (patAny p) := by
      simpa [specializeHead'] using member
    cases isTuple with
    | true => cases splits
    | false =>
      obtain ⟨t', same, args⟩ := splits
      refine ⟨allTyped_replicate_any ts (sig.arity t' con ts args), ?_⟩
      rintro seg subs ⟨v, rfl, -⟩ -
      simp [matchPat]
  | patBind x pat1 p =>
    obtain ⟨t, rfl, typed⟩ := typed
    obtain ⟨allTyped, sound⟩ :=
      specializeHead'_sound uniform splits pat1 typed (by simpa [specializeHead'] using member)
    cases isTuple with
    | true => cases splits
    | false =>
      refine ⟨allTyped, fun seg subs opens matched => matchPat_bind.mpr ⟨?_, ?_⟩⟩
      · obtain ⟨v, rfl, -⟩ := opens
        exact ⟨v, rfl⟩
      · exact sound seg subs opens matched
  | patOr pat1 pat2 p =>
    simp only [specializeHead', List.mem_append] at member
    rcases member with member | member
    · obtain ⟨allTyped, sound⟩ := specializeHead'_sound uniform splits pat1 typed.1 member
      exact ⟨allTyped, fun seg subs opens matched =>
        matchPat_or.mpr (.inl (sound seg subs opens matched))⟩
    · obtain ⟨allTyped, sound⟩ := specializeHead'_sound uniform splits pat2 typed.2 member
      exact ⟨allTyped, fun seg subs opens matched =>
        matchPat_or.mpr (.inr (sound seg subs opens matched))⟩
  | patExtractor x e pat1 p => simp [specializeHead'] at member
termination_by pat.size
decreasing_by all_goals (simp only [size]; omega)

/-- A row whose head came from specializing the head of `pat :: rest`. -/
theorem specialized_row_sound (uniform : sig.UniformFields) {isTuple : Bool}
    {con : Constructor} {column : Column Ty} {columns : List (Column Ty)} {ts : List Ty}
    (splits : Splits sig isTuple con column ts) {pat : Pattern} {rest head : List Pattern}
    (typed : sig.RowTyped (column :: columns) (pat :: rest))
    (member : head ∈ specializeHead' isTuple con pat) :
    sig.RowTyped (ts.map .one ++ columns) (head ++ rest) ∧
      ∀ seg subs segs, Opens S isTuple con seg subs → subs.length = ts.length →
        S.Matches ρ (head ++ rest) (singles subs ++ segs) →
        S.Matches ρ (pat :: rest) (seg :: segs) := by
  obtain ⟨headTyped, restTyped⟩ := rowTyped_cons.mp typed
  obtain ⟨allTyped, sound⟩ := specializeHead'_sound uniform splits pat headTyped member
  refine ⟨(rowTyped_of_allTyped allTyped).append restTyped, ?_⟩
  intro seg subs segs opens len matched
  have len : (singles subs).length = head.length := by simp [len, allTyped.length_eq]
  obtain ⟨first, second⟩ := (matches_append len).mp matched
  exact matches_cons_cons.mpr ⟨sound seg subs opens first, second⟩

/-! ## The row that is tested -/

theorem splits_constructor {con : Constructor} {patterns : List Pattern} {p : Pos}
    {column : Column Ty} (typed : sig.WellTyped column (patConstructor con patterns p)) :
    ∃ ts, Splits sig false con column ts ∧ sig.AllTyped ts patterns := by
  obtain ⟨t, ts, rfl, args, allTyped⟩ := typed
  exact ⟨ts, ⟨t, rfl, args⟩, allTyped⟩

theorem splits_tuple (con : Constructor) {patterns : List Pattern} {p : Pos}
    {column : Column Ty} (typed : sig.WellTyped column (patTuple patterns p)) :
    ∃ ts, Splits sig true con column ts ∧ sig.AllTyped ts patterns := typed

theorem opens_constructor {con : Constructor} {patterns : List Pattern} {p : Pos}
    {seg : List Value} :
    S.matchPat ρ (patConstructor con patterns p) seg ≠ [] ↔
      ∃ subs, Opens S false con seg subs ∧ S.Matches ρ patterns (singles subs) := by
  rw [matchPat_constructor]
  constructor
  · rintro ⟨v, subs, same, seen, matched⟩
    exact ⟨subs, ⟨v, same, seen⟩, matched⟩
  · rintro ⟨subs, ⟨v, same, seen⟩, matched⟩
    exact ⟨v, subs, same, seen, matched⟩

theorem opens_tuple {con : Constructor} {patterns : List Pattern} {p : Pos}
    {seg : List Value} :
    S.matchPat ρ (patTuple patterns p) seg ≠ [] ↔
      ∃ subs, Opens S true con seg subs ∧ S.Matches ρ patterns (singles subs) := by
  rw [matchPat_tuple]
  exact ⟨fun matched => ⟨seg, rfl, matched⟩, fun ⟨_, same, matched⟩ => same ▸ matched⟩

/-- The step from a head pattern to its components. -/
theorem matches_components {isTuple : Bool} {con : Constructor} {pat : Pattern}
    {patterns rest : List Pattern} {ts : List Ty}
    (opens : ∀ seg, S.matchPat ρ pat seg ≠ [] ↔
      ∃ subs, Opens S isTuple con seg subs ∧ S.Matches ρ patterns (singles subs))
    (typed : sig.AllTyped ts patterns) {segs : List (List Value)}
    (matched : S.Matches ρ (pat :: rest) segs) :
    ∃ seg subs tail, segs = seg :: tail ∧ Opens S isTuple con seg subs ∧
      subs.length = ts.length ∧ S.Matches ρ (patterns ++ rest) (singles subs ++ tail) := by
  obtain ⟨seg, tail, rfl, head, tailMatched⟩ := matches_cons.mp matched
  obtain ⟨subs, opened, components⟩ := (opens seg).mp head
  have len : (singles subs).length = patterns.length := components.length_eq
  refine ⟨seg, subs, tail, rfl, opened, ?_, (matches_append len).mpr ⟨components, tailMatched⟩⟩
  rw [← typed.length_eq, ← len, List.length_map]

/-! ## The `U` part -/

theorem mem_specialize {isTuple : Bool} {con : Constructor} {pM : List (List Pattern)}
    {row : List Pattern} (member : row ∈ specialize isTuple con pM) :
    ∃ pat rest head, pat :: rest ∈ pM ∧ head ∈ specializeHead isTuple con pat ∧
      row = head ++ rest := by
  obtain ⟨source, sourceMember, rowMember⟩ := List.mem_flatMap.mp member
  cases source with
  | nil => simp at rowMember
  | cons pat rest =>
    obtain ⟨head, headMember, same⟩ := List.mem_map.mp rowMember
    exact ⟨pat, rest, head, sourceMember, headMember, same.symm⟩

theorem mem_default {pM : List (List Pattern)} {row : List Pattern}
    (member : row ∈ default pM) :
    ∃ pat, pat :: row ∈ pM ∧ ((∃ v p, pat = patVariable v p) ∨ ∃ p, pat = patAny p) := by
  obtain ⟨source, sourceMember, same⟩ := List.mem_filterMap.mp member
  split at same
  · rename_i v p patterns
    exact ⟨_, Option.some.inj same ▸ sourceMember, .inl ⟨v, p, rfl⟩⟩
  · rename_i p patterns
    exact ⟨_, Option.some.inj same ▸ sourceMember, .inr ⟨p, rfl⟩⟩
  · cases same

/-- `u` is sound for a row whose head is taken apart, if it is for the row of components. -/
theorem u_sound_components (uniform : sig.UniformFields) {isTuple : Bool} {con : Constructor}
    {pM : List (List Pattern)} {pat : Pattern} {patterns ql : List Pattern}
    {column : Column Ty} {columns : List (Column Ty)} {ts : List Ty}
    (splits : Splits sig isTuple con column ts) (allTyped : sig.AllTyped ts patterns)
    (opens : ∀ seg, S.matchPat ρ pat seg ≠ [] ↔
      ∃ subs, Opens S isTuple con seg subs ∧ S.Matches ρ patterns (singles subs))
    (restTyped : sig.RowTyped columns ql)
    (rowsTyped : ∀ row ∈ pM, sig.RowTyped (column :: columns) row)
    (sound : sig.RowTyped (ts.map .one ++ columns) (patterns ++ ql) →
      (∀ row ∈ specialize isTuple con pM, sig.RowTyped (ts.map .one ++ columns) row) →
      ∀ segs, S.Matches ρ (patterns ++ ql) segs →
        ∃ row ∈ specialize isTuple con pM, S.Matches ρ row segs)
    {segs : List (List Value)} (matched : S.Matches ρ (pat :: ql) segs) :
    ∃ row ∈ pM, S.Matches ρ row segs := by
  obtain ⟨seg, subs, tail, rfl, opened, len, components⟩ :=
    matches_components opens allTyped matched
  have specialized : ∀ row ∈ specialize isTuple con pM,
      sig.RowTyped (ts.map .one ++ columns) row ∧
        (S.Matches ρ row (singles subs ++ tail) → ∃ row ∈ pM, S.Matches ρ row (seg :: tail)) := by
    intro row member
    obtain ⟨pat', rest, head, source, headMember, rfl⟩ := mem_specialize member
    obtain ⟨typed, back⟩ := specialized_row_sound (S := S) (ρ := ρ) uniform splits
      (rowsTyped _ source) (mem_specializeHead' headMember)
    exact ⟨typed, fun rowMatched => ⟨_, source, back seg subs tail opened len rowMatched⟩⟩
  obtain ⟨row, member, rowMatched⟩ := sound
    ((rowTyped_of_allTyped allTyped).append restTyped)
    (fun row member => (specialized row member).1) _ components
  exact (specialized row member).2 rowMatched

/-- The same for a head that matches any one value. -/
theorem u_sound_wildcard {pM : List (List Pattern)} {pat : Pattern} {ql : List Pattern}
    {column : Column Ty} {columns : List (Column Ty)}
    (wildcard : ∀ seg, S.matchPat ρ pat seg ≠ [] ↔ ∃ v, seg = [v])
    (rowsTyped : ∀ row ∈ pM, sig.RowTyped (column :: columns) row)
    (sound : (∀ row ∈ default pM, sig.RowTyped columns row) →
      ∀ segs, S.Matches ρ ql segs → ∃ row ∈ default pM, S.Matches ρ row segs)
    {segs : List (List Value)} (matched : S.Matches ρ (pat :: ql) segs) :
    ∃ row ∈ pM, S.Matches ρ row segs := by
  obtain ⟨seg, tail, rfl, head, tailMatched⟩ := matches_cons.mp matched
  obtain ⟨v, rfl⟩ := (wildcard seg).mp head
  have defaultTyped : ∀ row ∈ default pM, sig.RowTyped columns row := by
    intro row member
    obtain ⟨pat', source, -⟩ := mem_default member
    exact (rowTyped_cons.mp (rowsTyped _ source)).2
  obtain ⟨row, member, rowMatched⟩ := sound defaultTyped tail tailMatched
  obtain ⟨pat', source, ⟨x, p, rfl⟩ | ⟨p, rfl⟩⟩ := mem_default member
  · exact ⟨_, source, matches_cons_cons.mpr ⟨matchPat_variable.mpr ⟨v, rfl⟩, rowMatched⟩⟩
  · exact ⟨_, source, matches_cons_cons.mpr ⟨matchPat_any.mpr ⟨v, rfl⟩, rowMatched⟩⟩

/-- When `u` is false, some row of the matrix matches whatever `q` matches. -/
theorem u_sound (uniform : sig.UniformFields) {pM : List (List Pattern)} {q : List Pattern}
    {columns : List (Column Ty)} (typed : sig.RowTyped columns q)
    (rowsTyped : ∀ row ∈ pM, sig.RowTyped columns row) (useless : u pM q = false)
    {segs : List (List Value)} (matched : S.Matches ρ q segs) :
    ∃ row ∈ pM, S.Matches ρ row segs := by
  induction pM, q using u.induct generalizing columns segs with
  | case1 pM =>
    obtain rfl := matches_nil.mp matched
    obtain rfl : columns = [] := typed
    cases pM with
    | nil => simp [u] at useless
    | cons row pM =>
      have empty : row = [] :=
        List.length_eq_zero_iff.mp ((rowsTyped row List.mem_cons_self).length_eq)
      exact ⟨row, List.mem_cons_self, by simp [empty]⟩
  | case2 pM con patterns p ql ih =>
    obtain ⟨column, columns, rfl, headTyped, restTyped⟩ := typed
    obtain ⟨ts, splits, allTyped⟩ := splits_constructor headTyped
    exact u_sound_components uniform splits allTyped (fun _ => opens_constructor) restTyped
      rowsTyped (fun typed rowsTyped segs => ih typed rowsTyped (by simpa [u] using useless))
      matched
  | case3 pM patterns p ql ih =>
    obtain ⟨column, columns, rfl, headTyped, restTyped⟩ := typed
    obtain ⟨ts, splits, allTyped⟩ := splits_tuple _ headTyped
    exact u_sound_components uniform splits allTyped (fun _ => opens_tuple) restTyped
      rowsTyped (fun typed rowsTyped segs => ih typed rowsTyped (by simpa [u] using useless))
      matched
  | case4 pM v p ql ih =>
    obtain ⟨column, columns, rfl, -, restTyped⟩ := typed
    exact u_sound_wildcard (fun _ => matchPat_variable) rowsTyped
      (fun rowsTyped segs => ih restTyped rowsTyped (by simpa [u] using useless)) matched
  | case5 pM p ql ih =>
    obtain ⟨column, columns, rfl, -, restTyped⟩ := typed
    exact u_sound_wildcard (fun _ => matchPat_any) rowsTyped
      (fun rowsTyped segs => ih restTyped rowsTyped (by simpa [u] using useless)) matched
  | case6 pM pat1 pat2 p ql ih1 ih2 =>
    obtain ⟨column, columns, rfl, ⟨typed1, typed2⟩, restTyped⟩ := typed
    obtain ⟨useless1, useless2⟩ : u pM (pat1 :: ql) = false ∧ u pM (pat2 :: ql) = false := by
      simpa [u] using useless
    obtain ⟨seg, tail, rfl, head, tailMatched⟩ := matches_cons.mp matched
    rcases matchPat_or.mp head with head | head
    · exact ih1 (rowTyped_cons.mpr ⟨typed1, restTyped⟩) rowsTyped useless1
        (matches_cons_cons.mpr ⟨head, tailMatched⟩)
    · exact ih2 (rowTyped_cons.mpr ⟨typed2, restTyped⟩) rowsTyped useless2
        (matches_cons_cons.mpr ⟨head, tailMatched⟩)
  | case7 pM v pat1 p ql ih =>
    obtain ⟨column, columns, rfl, ⟨t, rfl, headTyped⟩, restTyped⟩ := typed
    obtain ⟨seg, tail, rfl, head, tailMatched⟩ := matches_cons.mp matched
    exact ih (rowTyped_cons.mpr ⟨headTyped, restTyped⟩) rowsTyped (by simpa [u] using useless)
      (matches_cons_cons.mpr ⟨(matchPat_bind.mp head).2, tailMatched⟩)
  | case8 pM v e pat p ql => simp [u] at useless

end Haxe.Source.Typing.UselessPatterns

/-!
## The sub-pattern that a warning is about

`Narrow pat p pat' earlier`: the sub-pattern at `p` is an alternative of an or-pattern
of `pat`, or the whole of it. A value reaches it when it matches `pat'`, and reaches an
alternative before it when it matches one of `earlier`.
-/

namespace Haxe.Source.Typing.UselessPatterns
open Pattern Semantics Signature

mutual

inductive Narrow : Pattern → Pos → Pattern → List Pattern → Prop where
  | left (pat1 pat2 p) : Narrow (patOr pat1 pat2 p) pat1.pos pat1 []
  | right (pat1 pat2 p) : Narrow (patOr pat1 pat2 p) pat2.pos pat2 [pat1]
  | whole (pat1 pat2 p) :
    Narrow (patOr pat1 pat2 p) (punion pat1.pos pat2.pos) (patOr pat1 pat2 p) []
  | inLeft {pat1 pos pat1' earlier} (pat2 p) : Narrow pat1 pos pat1' earlier →
    Narrow (patOr pat1 pat2 p) pos pat1' earlier
  | inRight {pat2 pos pat2' earlier} (pat1 p) : Narrow pat2 pos pat2' earlier →
    Narrow (patOr pat1 pat2 p) pos pat2' (pat1 :: earlier)
  | inBind {pat pos pat' earlier} (v p) : Narrow pat pos pat' earlier →
    Narrow (patBind v pat p) pos (patBind v pat' p) (earlier.map (patBind v · p))
  | inConstructor {pats pos pats' earlier} (con p) : NarrowRow pats pos pats' earlier →
    Narrow (patConstructor con pats p) pos (patConstructor con pats' p)
      (earlier.map (patConstructor con · p))
  | inTuple {pats pos pats' earlier} (p) : NarrowRow pats pos pats' earlier →
    Narrow (patTuple pats p) pos (patTuple pats' p) (earlier.map (patTuple · p))

/-- The same in one pattern of a row, whose other patterns stay. -/
inductive NarrowRow : List Pattern → Pos → List Pattern → List (List Pattern) → Prop where
  | head {pat pos pat' earlier} (pats) : Narrow pat pos pat' earlier →
    NarrowRow (pat :: pats) pos (pat' :: pats) (earlier.map (· :: pats))
  | tail {pats pos pats' earlier} (pat) : NarrowRow pats pos pats' earlier →
    NarrowRow (pat :: pats) pos (pat :: pats') (earlier.map (pat :: ·))

end

theorem NarrowRow.length_eq {row row' : List Pattern} {pos : Pos}
    {earlier : List (List Pattern)} (narrow : NarrowRow row pos row' earlier) :
    row'.length = row.length ∧ ∀ before ∈ earlier, before.length = row.length := by
  induction row generalizing row' earlier with
  | nil => cases narrow
  | cons pat pats ih =>
    cases narrow with
    | head _ narrow => simp
    | tail _ narrow =>
      obtain ⟨same, all⟩ := ih narrow
      refine ⟨by simp [same], ?_⟩
      rintro _ member
      obtain ⟨before, beforeMember, rfl⟩ := List.mem_map.mp member
      simp [all before beforeMember]

theorem NarrowRow.of_append {first second row' : List Pattern} {pos : Pos}
    {earlier : List (List Pattern)} (narrow : NarrowRow (first ++ second) pos row' earlier) :
    (∃ first' before, NarrowRow first pos first' before ∧ row' = first' ++ second ∧
      earlier = before.map (· ++ second)) ∨
    (∃ second' before, NarrowRow second pos second' before ∧ row' = first ++ second' ∧
      earlier = before.map (first ++ ·)) := by
  induction first generalizing row' earlier with
  | nil => exact .inr ⟨row', earlier, narrow, rfl, by simp⟩
  | cons pat pats ih =>
    cases narrow with
    | head _ narrow => exact .inl ⟨_, _, .head _ narrow, rfl, by simp⟩
    | tail _ narrow =>
      rcases ih narrow with ⟨first', before, inner, rfl, rfl⟩ | ⟨second', before, inner, rfl, rfl⟩
      · exact .inl ⟨_, _, .tail _ inner, rfl, by simp⟩
      · exact .inr ⟨_, _, inner, rfl, by simp⟩

theorem NarrowRow.of_index {row : List Pattern} {i : Nat} {pat pat' : Pattern} {pos : Pos}
    {earlier : List Pattern} (at_i : row[i]? = some pat) (narrow : Narrow pat pos pat' earlier) :
    NarrowRow row pos (row.set i pat') (earlier.map (row.set i ·)) := by
  induction row generalizing i with
  | nil => simp at at_i
  | cons first pats ih =>
    cases i with
    | zero =>
      obtain rfl : first = pat := by simpa using at_i
      exact .head pats narrow
    | succ i =>
      have rest := NarrowRow.tail first (ih (i := i) (by simpa using at_i))
      simpa [Function.comp_def] using rest

/-! ## One column out of a row -/

variable {Value Ty : Type} {S : Semantics Value} {ρ : Env Value} {sig : Signature Ty}

theorem matches_index {row : List Pattern} {i : Nat} {pat : Pattern} (at_i : row[i]? = some pat)
    {segs : List (List Value)} :
    S.Matches ρ row segs ↔ ∃ seg, segs[i]? = some seg ∧ S.matchPat ρ pat seg ≠ [] ∧
      S.Matches ρ (row.eraseIdx i) (segs.eraseIdx i) := by
  induction row generalizing i segs with
  | nil => simp at at_i
  | cons first pats ih =>
    cases i with
    | zero =>
      obtain rfl : first = pat := by simpa using at_i
      cases segs with
      | nil => simp [matches_cons]
      | cons seg segs => simp [matches_cons_cons]
    | succ i =>
      cases segs with
      | nil => simp [matches_cons]
      | cons seg segs =>
        simp only [matches_cons_cons, List.eraseIdx_cons_succ, List.getElem?_cons_succ,
          ih (i := i) (by simpa using at_i)]
        constructor
        · rintro ⟨head, seg', at_i, matched, rest⟩
          exact ⟨seg', at_i, matched, head, rest⟩
        · rintro ⟨seg', at_i, matched, head, rest⟩
          exact ⟨head, seg', at_i, matched, rest⟩

theorem rowTyped_index {columns : List (Column Ty)} {row : List Pattern}
    (typed : sig.RowTyped columns row) {i : Nat} (bound : i < columns.length) :
    ∃ column pat, columns[i]? = some column ∧ row[i]? = some pat ∧ sig.WellTyped column pat ∧
      sig.RowTyped (columns.eraseIdx i) (row.eraseIdx i) := by
  induction row generalizing columns i with
  | nil => obtain rfl : columns = [] := typed; simp at bound
  | cons pat pats ih =>
    obtain ⟨column, rest, rfl, head, tail⟩ := typed
    cases i with
    | zero => exact ⟨column, pat, rfl, rfl, head, tail⟩
    | succ i =>
      obtain ⟨column', pat', columnAt, patAt, head', tail'⟩ := ih tail (by simpa using bound)
      exact ⟨column', pat', by simpa using columnAt, by simpa using patAt, head',
        column, _, rfl, head, tail'⟩

end Haxe.Source.Typing.UselessPatterns
