import Haxe.Source.Typing.ExtractorRows

/-!
# Each function of `compile` keeps first-match semantics

Each lemma here is about one of the mutually recursive functions, given that the calls
it makes are right. `Ready` is the invariant of a call, `Correct` its result.
-/

namespace Haxe.Source.Typing.Compile
open Pattern Semantics Signature

variable {Value Ty : Type}

/-- What a call of `compile` needs of its subjects and rows. `Γ` has the types of all
variables so far. -/
structure Ready (sig : Signature Ty) (P : TVar → Prop) (n0 n : Nat) (Γ : TVar → Ty)
    (subjects : List (Subject Ty)) (rows : List Row) : Prop where
  le : n0 ≤ n
  patternVars : ∀ y, P y → y < n0
  below : ∀ y < n0, ¬ P y → Γ y = sig.vtype y
  typed : ∀ s ∈ subjects, sig.etype Γ s.expr = s.etype
  free : ∀ s ∈ subjects, ∀ y ∈ s.expr.vars, y < n ∧ ¬ P y
  rowTyped : ∀ row ∈ rows, sig.AllTyped (subjects.map Subject.etype) row.patterns
  inScope : ∀ row ∈ rows, RowScoped P n0 n row

def values (S : Semantics Value) (ρ : Env Value) (subjects : List (Subject Ty)) : List Value :=
  subjects.map fun s => S.eval ρ s.expr

/-- A run returns a tree that has the outcome of the rows wherever they are in order. -/
def Correct (S : Semantics Value) (P : TVar → Prop) (n : Nat) (subjects : List (Subject Ty))
    (rows : List Row) (run : Except MatchFailure (Dt Ty × Nat)) : Prop :=
  ∃ dt n', run = .ok (dt, n') ∧ n ≤ n' ∧ ∀ ρ, InOrder S ρ rows (values S ρ subjects) →
    Outcome S P n ρ rows (values S ρ subjects) (S.evalDt ρ dt)

/-- All calls with less weight, or as much and fewer columns, are right. -/
def CorrectBelow (S : Semantics Value) (ctx : Context Ty) (P : TVar → Prop) (n0 weight width : Nat) :
    Prop :=
  ∀ n Γ subjects rows, Prod.Lex (· < ·) (· < ·) (rowsWeight rows, subjects.length) (weight, width) →
    Ready ctx.sig P n0 n Γ subjects rows → Correct S P n subjects rows (compile ctx n subjects rows)

variable {S : Semantics Value} {P : TVar → Prop} {n n' n0 : Nat} {ρ ρ' : Env Value}
variable {sig : Signature Ty} {ctx : Context Ty} {Γ : TVar → Ty}
variable {subject : Subject Ty} {subjects : List (Subject Ty)} {rows : List Row}

theorem values_agree (agree : Agree P n ρ ρ')
    (free : ∀ s ∈ subjects, ∀ y ∈ s.expr.vars, y < n ∧ ¬ P y) :
    values S ρ subjects = values S ρ' subjects :=
  List.map_congr_left fun s member => eval_agree agree (free s member)

theorem outcome_mono {vs : List Value} {reached : Option (Case × Env Value)} (le : n ≤ n')
    (outcome : Outcome S P n' ρ rows vs reached) : Outcome S P n ρ rows vs reached := by
  cases reached with
  | none => exact outcome
  | some reached => exact ⟨outcome.1, outcome.2.1.mono le, outcome.2.2⟩

/-- Later calls need no less. -/
theorem Ready.mono {rows' : List Row} (ready : Ready sig P n0 n Γ subjects rows) (le : n ≤ n')
    (fewer : rows' ⊆ rows) : Ready sig P n0 n' Γ subjects rows' where
  le := Nat.le_trans ready.le le
  patternVars := ready.patternVars
  below := ready.below
  typed := ready.typed
  free s member y inside := ⟨Nat.lt_of_lt_of_le (ready.free s member y inside).1 le,
    (ready.free s member y inside).2⟩
  rowTyped row member := ready.rowTyped row (fewer member)
  inScope row member := (ready.inScope row (fewer member)).mono le

/-- A call for transformed rows is right for the rows themselves. -/
theorem correct_flatMap {g : Row → List Row} {subjects' : List (Subject Ty)}
    {run : Except MatchFailure (Dt Ty × Nat)}
    (refines : ∀ ρ, ∀ row ∈ rows,
      Refines S ρ (g row) (values S ρ subjects') row (values S ρ subjects))
    (inScope : ∀ row ∈ rows, RowScoped P n0 n row)
    (overtakes : KeepsOrder g rows)
    (correct : Correct S P n subjects' (rows.flatMap g) run) : Correct S P n subjects rows run := by
  obtain ⟨dt, n', returned, le, right⟩ := correct
  exact ⟨dt, n', returned, le, fun ρ inOrder => outcome_flatMap (refines ρ) inScope
    (right ρ (inOrder_flatMap (refines ρ) inScope overtakes inOrder))⟩

/-! ## Leaves -/

/-- The loop of `compile_leaf` binds what a row of wildcards matches. -/
theorem leafBindings_spec {pats : List Pattern} (bindings : List (TVar × Texpr))
    (wild : pats.all isWildcardPattern = true) (len : pats.length = subjects.length)
    (inScope : AllScoped P n0 pats) :
    ∃ bs extra, leafBindings bindings pats subjects = .ok bs ∧ bs.Perm (bindings ++ extra) ∧
      extra.map Prod.fst = patsVars pats ∧
      (∀ b ∈ extra, P b.1 ∧ ∃ s ∈ subjects, b.2 = s.expr) ∧
      ∀ ρ, S.matchPats ρ pats (values S ρ subjects) = [S.bound ρ extra] := by
  induction bindings, pats, subjects using leafBindings.induct with
  | case1 bindings p subjects =>
    obtain ⟨s, rfl⟩ := List.length_eq_one_iff.mp len.symm
    exact ⟨bindings, [], by simp [leafBindings], by simp, by simp [patsVars, patVars], by simp,
      fun ρ => by simp [values, matchPats, matchPat, product, bound]⟩
  | case2 bindings v p pats e el ih =>
    simp only [AllScoped, Scoped] at inScope
    obtain ⟨bs, extra, run, perm, keys, scopes, matched⟩ :=
      ih (by simpa [isWildcardPattern] using wild) (by simpa using len) inScope.2
    refine ⟨bs, (v, e.expr) :: extra, by simpa [leafBindings] using run,
      perm.trans List.perm_middle.symm, by simp [patsVars, patVars, keys], ?_, fun ρ => ?_⟩
    · intro b member
      rcases List.mem_cons.mp member with rfl | member
      · exact ⟨inScope.1, e, List.mem_cons_self, rfl⟩
      · obtain ⟨isP, s, inside, same⟩ := scopes b member
        exact ⟨isP, s, .tail _ inside, same⟩
    · have rest := matched ρ
      simp only [values] at rest
      simp [values, matchPats, matchPat, rest, product, bound]
  | case3 bindings v pat1 p pats e el ih =>
    simp only [AllScoped, Scoped] at inScope
    obtain ⟨bs, extra, run, perm, keys, scopes, matched⟩ :=
      ih (by simpa [isWildcardPattern] using wild) (by simpa using len)
        ⟨inScope.1.2, inScope.2⟩
    refine ⟨bs, (v, e.expr) :: extra, by simpa [leafBindings] using run,
      perm.trans List.perm_middle.symm, by simp [keys, patsVars, patVars], ?_, fun ρ => ?_⟩
    · intro b member
      rcases List.mem_cons.mp member with rfl | member
      · exact ⟨inScope.1.1, e, List.mem_cons_self, rfl⟩
      · exact scopes b member
    · have rest := matched ρ
      have moved : S.matchPats ρ (patBind v pat1 p :: pats) (values S ρ (e :: el)) =
          (S.matchPats ρ (pat1 :: pats) (values S ρ (e :: el))).map ((v, S.eval ρ e.expr) :: ·) := by
        simp [values, matchPats, matchPat, product, List.map_flatMap, List.flatMap_map,
          Function.comp_def]
      rw [moved, rest]
      simp [bound]
  | case4 bindings pat pats e el notLast notVariable notBind ih =>
    cases pat with
    | patAny p =>
      simp only [AllScoped] at inScope
      obtain ⟨bs, extra, run, perm, keys, scopes, matched⟩ :=
        ih (by simpa [isWildcardPattern] using wild) (by simpa using len) inScope.2
      refine ⟨bs, extra, ?_, perm, by simp [patsVars, patVars, keys], ?_, fun ρ => ?_⟩
      · rw [leafBindings]
        · exact run
        all_goals simp_all
      · intro b member
        obtain ⟨isP, s, inside, same⟩ := scopes b member
        exact ⟨isP, s, .tail _ inside, same⟩
      · have rest := matched ρ
        simp only [values] at rest
        simp [values, matchPats, matchPat, rest, product]
    | patVariable v p => exact absurd rfl (notVariable v p)
    | patBind v pat1 p => exact absurd rfl (notBind v pat1 p)
    | patConstructor | patOr | patTuple | patExtractor => simp [isWildcardPattern] at wild
  | case5 bindings =>
    exact ⟨bindings, [], by simp [leafBindings], by simp, by simp [patsVars], by simp,
      fun ρ => by simp [values, matchPats, bound]⟩
  | case6 | case7 => simp at len

/-- The test of a row that is not taken does not change which is the first. -/
theorem inOrder_of_later {row : Row} {rest : List Row} {vs : List Value}
    (free : ¬ IsTaken S ρ vs row) (inOrder : InOrder S ρ (row :: rest) vs) :
    InOrder S ρ rest vs :=
  fun c isFirst first member same taken row' member' =>
    inOrder c (.later free isFirst) first (.tail _ member) same taken row' (.tail _ member')

theorem outcome_of_later {row : Row} {rest : List Row} {vs : List Value}
    (free : ¬ IsTaken S ρ vs row) {reached : Option (Case × Env Value)}
    (outcome : Outcome S P n ρ rest vs reached) : Outcome S P n ρ (row :: rest) vs reached := by
  cases reached with
  | none => exact fun row' member => (List.mem_cons.mp member).elim (· ▸ free) (outcome row')
  | some reached =>
    obtain ⟨first, agree, row', member, found⟩ := outcome
    exact ⟨.later free first, agree, row', .tail _ member, found⟩

theorem compileLeaf_correct {row : Row} {rest : List Row}
    (below : CorrectBelow S ctx P n0 (rowsWeight (row :: rest)) subjects.length)
    (ready : Ready ctx.sig P n0 n Γ subjects (row :: rest))
    (wild : row.patterns.all isWildcardPattern = true) :
    Correct S P n subjects (row :: rest) (compileLeaf ctx n subjects row rest) := by
  have rowScope := ready.inScope row List.mem_cons_self
  have len : row.patterns.length = subjects.length := by
    simpa using (ready.rowTyped row List.mem_cons_self).length_eq
  obtain ⟨bs, extra, run, perm, keys, scopes, matched⟩ :=
    leafBindings_spec (S := S) row.bindings wild len rowScope.patterns
  have isP : ∀ b ∈ row.bindings ++ extra, P b.1 ∧ ∀ y ∈ b.2.vars, y < n ∧ ¬ P y := by
    intro b member
    rcases List.mem_append.mp member with member | member
    · exact rowScope.bindings b member
    · obtain ⟨isP, s, inside, same⟩ := scopes b member
      exact ⟨isP, same ▸ ready.free s inside⟩
  have order : bs.reverse.Perm (row.bindings ++ extra) := bs.reverse_perm.trans perm
  have nodup : ((row.bindings ++ extra).map Prod.fst).Nodup := by
    simpa [rowVars, keys] using rowScope.nodup
  -- the environment at the leaf has the bindings of the only match
  have matches' : ∀ ρ, S.rowMatches ρ row (values S ρ subjects) =
      [S.bound ρ (row.bindings ++ extra)] := fun ρ => by
    simp [rowMatches, matched ρ, bound]
  have boundKeys : ∀ ρ bindings, (S.bound ρ bindings).map Prod.fst = bindings.map Prod.fst :=
    fun ρ bindings => by simp [bound, Function.comp_def]
  have atLeaf : ∀ ρ, S.bindAll ρ bs.reverse = extend ρ (S.bound ρ (row.bindings ++ extra)) := by
    intro ρ
    have nodup' : (bs.reverse.map Prod.fst).Nodup := (order.map _).nodup_iff.mpr nodup
    rw [bindAll_eq_extend nodup' ?_]
    · exact extend_perm (order.map _) (boundKeys ρ _ ▸ nodup')
    · intro b member y inside again
      obtain ⟨b', member', rfl⟩ := List.mem_map.mp again
      exact ((isP b (order.mem_iff.mp member)).2 _ inside).2 (isP b' (order.mem_iff.mp member')).1
  have agree : ∀ ρ, Agree P n ρ (S.bindAll ρ bs.reverse) := fun ρ => atLeaf ρ ▸
    agree_extend fun b member => by
      obtain ⟨b', inside, rfl⟩ := List.mem_map.mp member
      exact (isP b' inside).1
  have bind : ∀ ρ (dt : Dt Ty), S.evalDt ρ (if bs.isEmpty then dt else .bind bs.reverse dt) =
      S.evalDt (S.bindAll ρ bs.reverse) dt := by
    intro ρ dt
    cases bs with
    | nil => simp [bindAll]
    | cons b bs => simp [evalDt]
  have here : ∀ ρ, S.guardHolds ρ row.case (S.bound ρ (row.bindings ++ extra)) = true →
      Outcome S P n ρ (row :: rest) (values S ρ subjects)
        (some (row.case, S.bindAll ρ bs.reverse)) := by
    intro ρ holds
    have taken : S.Taken ρ row (values S ρ subjects) (S.bound ρ (row.bindings ++ extra)) :=
      ⟨by simp [matches'], holds⟩
    refine ⟨.here rfl ⟨_, taken⟩, agree ρ, row, List.mem_cons_self, rfl, _, taken, fun b member => ?_⟩
    rw [atLeaf]
    exact extend_of_mem (boundKeys ρ _ ▸ nodup) member
  cases guarded : row.case.caseGuard with
  | none =>
    refine ⟨if bs.isEmpty then .leaf row.case else .bind bs.reverse (.leaf row.case), n,
      by rw [compileLeaf, guarded, run]; rfl, Nat.le_refl n, fun ρ _ => ?_⟩
    rw [bind]
    simpa [evalDt] using here ρ (by simp [guardHolds, guarded])
  | some g =>
    obtain ⟨dt2, n', returned, le, right⟩ := below n Γ subjects rest
      (.left _ _ (by simpa using weights_pos row.patterns))
      (ready.mono (Nat.le_refl n) (List.subset_cons_self _ _))
    refine ⟨if bs.isEmpty then .guard g (.leaf row.case) dt2
        else .bind bs.reverse (.guard g (.leaf row.case) dt2), n',
      by rw [compileLeaf, guarded, run]; simp [returned, Bind.bind, Except.bind], le,
      fun ρ inOrder => ?_⟩
    rw [bind, evalDt, evalDt]
    have sameGuard : S.truth (S.eval (S.bindAll ρ bs.reverse) g) =
        S.guardHolds ρ row.case (S.bound ρ (row.bindings ++ extra)) := by
      simp [guardHolds, guarded, atLeaf]
    rw [sameGuard]
    split
    · rename_i holds
      exact here ρ holds
    · rename_i fails
      have free : ¬ IsTaken S ρ (values S ρ subjects) row := by
        rintro ⟨β, isMatch, holds⟩
        rw [matches', List.mem_singleton] at isMatch
        exact fails (isMatch ▸ holds)
      have restScope := fun row member => ready.inScope row (.tail _ member)
      have sameValues := values_agree (S := S) (agree ρ) ready.free
      have restOrder := inOrder_agree restScope ready.le (agree ρ) (inOrder_of_later free inOrder)
      rw [sameValues] at restOrder
      have outcome := right _ restOrder
      rw [← sameValues] at outcome
      exact outcome_of_later free (outcome_agree restScope ready.le (agree ρ) outcome)

/-! ## Sub-subjects -/

theorem getSubSubjects_types {con : Constructor} {conTs : List Ty}
    (conTyped : sig.args subject.etype con = some conTs) :
    (getSubSubjects sig subject con).map Subject.etype = conTs := by
  have len := sig.arity _ con conTs conTyped
  refine List.ext_getElem (by simp [getSubSubjects, len]) fun i _ bound => ?_
  simp [getSubSubjects, conTyped, bound]

/-- The sub-subjects read the sub-values. -/
theorem values_getSubSubjects {con : Constructor} {subs : List Value}
    (seen : S.view con (S.eval ρ subject.expr) = some subs) :
    values S ρ (getSubSubjects sig subject con) = subs := by
  have len := S.view_arity con _ subs seen
  refine List.ext_getElem (by simp [values, getSubSubjects, len]) fun i _ bound => ?_
  simp [values, getSubSubjects, eval, S.view_sub con _ subs seen i bound]

/-- The variables for sub-subjects are new ones, in order. -/
theorem genLocals_eq (fresh : Nat) (subSubjects : List (Subject Ty)) :
    genLocals fresh subSubjects =
      ((List.range' fresh subSubjects.length).zip (subSubjects.map Subject.expr),
        ((List.range' fresh subSubjects.length).zip (subSubjects.map Subject.etype)).map
          fun (x, t) => ⟨.tLocal x, t⟩) := by
  induction subSubjects generalizing fresh with
  | nil => rfl
  | cons e subSubjects ih => simp [genLocals, ih, List.range'_succ]

theorem genLocals_types (fresh : Nat) (subSubjects : List (Subject Ty)) :
    (genLocals fresh subSubjects).2.map Subject.etype = subSubjects.map Subject.etype := by
  rw [genLocals_eq, List.map_map]
  exact List.map_snd_zip (by simp)

theorem map_fst_zip {α β : Type} {l : List α} {l' : List β} (len : l.length = l'.length) :
    (l.zip l').map Prod.fst = l := List.map_fst_zip (Nat.le_of_eq len)

/-- New variables `xs` for values or types `ws`. -/
theorem extend_new {α : Type} {xs : List TVar} {ws : List α} {σ : TVar → α}
    (len : xs.length = ws.length) (nodup : xs.Nodup) :
    xs.map (extend σ (xs.zip ws)) = ws := by
  have keys : ((xs.zip ws).map Prod.fst).Nodup := by rwa [map_fst_zip len]
  refine List.ext_getElem (by simp [len]) fun i inMap inWs => ?_
  have inXs : i < xs.length := by simpa using inMap
  have member : (xs[i], ws[i]) ∈ xs.zip ws :=
    List.mem_iff_getElem.mpr ⟨i, by simpa [len] using inWs, by simp⟩
  simpa using extend_of_mem (ρ := σ) keys member


theorem agree_extend_new {α : Type} {xs : List TVar} {ws : List α} {σ : TVar → α}
    (len : xs.length = ws.length) {y : TVar} (new : y ∉ xs) : extend σ (xs.zip ws) y = σ y := by
  rw [extend, lookup_eq_none (by rwa [map_fst_zip len]), Option.getD_none]

theorem bound_zip (xs : List TVar) (ss : List (Subject Ty)) :
    S.bound ρ (xs.zip (ss.map Subject.expr)) = xs.zip (values S ρ ss) := by
  induction xs generalizing ss with
  | nil => rfl
  | cons x xs ih =>
    cases ss with
    | nil => rfl
    | cons s ss => exact congrArg _ (ih ss)

/-- The `Bind` of a branch gives the new variables the values of the sub-subjects. -/
theorem bindAll_genLocals {subSubjects : List (Subject Ty)}
    (free : ∀ s ∈ subSubjects, ∀ y ∈ s.expr.vars, y < n) :
    S.bindAll ρ (genLocals n subSubjects).1 =
      extend ρ ((List.range' n subSubjects.length).zip (values S ρ subSubjects)) := by
  have keys : ((genLocals n subSubjects).1).map Prod.fst = List.range' n subSubjects.length := by
    rw [genLocals_eq, map_fst_zip (by simp)]
  rw [bindAll_eq_extend (keys ▸ List.nodup_range')]
  · rw [genLocals_eq, bound_zip]
  · intro b member y inside again
    rw [genLocals_eq] at member
    obtain ⟨s, inSubs, same⟩ := List.mem_map.mp (List.of_mem_zip member).2
    rw [keys] at again
    exact Nat.lt_irrefl y (Nat.lt_of_lt_of_le (free s inSubs y (same ▸ inside))
      (List.mem_range'_1.mp again).1)

theorem values_genLocals (subSubjects : List (Subject Ty)) :
    values S ρ (genLocals n subSubjects).2 = (List.range' n subSubjects.length).map ρ := by
  have read : (fun s : Subject Ty => S.eval ρ s.expr) ∘
      (fun (x, t) => (⟨.tLocal x, t⟩ : Subject Ty)) = ρ ∘ Prod.fst := rfl
  rw [genLocals_eq, values, List.map_map, read, ← List.map_map, map_fst_zip (by simp)]

/-! ## The cases of a switch -/

/-- A switch on `subject`: the rows have heads that can be tested. -/
structure SwitchReady (sig : Signature Ty) (P : TVar → Prop) (n0 n : Nat) (Γ : TVar → Ty)
    (subject : Subject Ty) (subjects : List (Subject Ty)) (rows : List Row) : Prop
    extends Ready sig P n0 n Γ (subject :: subjects) rows where
  known : ∀ row ∈ rows, headOf subject.expr row ≠ .extractor ∧ headOf subject.expr row ≠ .unexpected

theorem SwitchReady.row (ready : SwitchReady sig P n0 n Γ subject subjects rows) (row : Row)
    (member : row ∈ rows) :
    SwitchRow sig P n0 n subject.expr subject.etype (subjects.map Subject.etype) row where
  typed := ready.rowTyped row member
  inScope := ready.inScope row member
  known := ready.known row member

theorem SwitchReady.subjectFree (ready : SwitchReady sig P n0 n Γ subject subjects rows) :
    ∀ y ∈ subject.expr.vars, y < n ∧ ¬ P y := ready.free subject List.mem_cons_self

theorem SwitchReady.mono (ready : SwitchReady sig P n0 n Γ subject subjects rows) (le : n ≤ n') :
    SwitchReady sig P n0 n' Γ subject subjects rows where
  toReady := ready.toReady.mono le (List.Subset.refl _)
  known := ready.known

/-- The invariant of the call for one constructor. -/
theorem SwitchReady.specialized (ready : SwitchReady sig P n0 n Γ subject subjects rows)
    (uniform : sig.UniformFields) (disjoint : S.Disjoint sig) {con : Constructor}
    {conTs : List Ty} (conTyped : sig.args subject.etype con = some conTs) :
    Ready sig P n0 (n + (getSubSubjects sig subject con).length)
      (extend Γ ((List.range' n conTs.length).zip conTs))
      ((genLocals n (getSubSubjects sig subject con)).2 ++ subjects)
      (specialize subject.expr con rows) := by
  have types := getSubSubjects_types conTyped
  have len : (getSubSubjects sig subject con).length = conTs.length := by simp [← types]
  have new : ∀ y < n, y ∉ List.range' n conTs.length := fun y below member => by
    have := List.mem_range'_1.mp member
    omega
  have old : ∀ y < n, extend Γ ((List.range' n conTs.length).zip conTs) y = Γ y :=
    fun y below => agree_extend_new (by simp) (new y below)
  have locals : (genLocals n (getSubSubjects sig subject con)).2 =
      ((List.range' n conTs.length).zip conTs).map fun (x, t) => ⟨.tLocal x, t⟩ := by
    rw [genLocals_eq, types, len]
  have keeps := fun row member =>
    specialized_keeps uniform disjoint (ready.row row member) ready.subjectFree conTyped
  refine ⟨Nat.le_trans ready.le (Nat.le_add_right _ _), ready.patternVars, ?_, ?_, ?_, ?_, ?_⟩
  · intro y below free
    rw [old y (Nat.lt_of_lt_of_le below ready.le), ready.below y below free]
  · intro s member
    rcases List.mem_append.mp member with member | member
    · rw [locals] at member
      obtain ⟨⟨x, t⟩, inside, rfl⟩ := List.mem_map.mp member
      have nodup : (((List.range' n conTs.length).zip conTs).map Prod.fst).Nodup := by
        rw [map_fst_zip (by simp)]
        exact List.nodup_range'
      rw [sig.etype_local]
      exact extend_of_mem (ρ := Γ) nodup inside
    · rw [← ready.typed s (.tail _ member)]
      exact sig.etype_congr _ _ _ fun y inside => old y (ready.free s (.tail _ member) y inside).1
  · intro s member y inside
    rcases List.mem_append.mp member with member | member
    · rw [locals] at member
      obtain ⟨⟨x, t⟩, inZip, rfl⟩ := List.mem_map.mp member
      obtain rfl : y = x := by simpa [Texpr.vars] using inside
      have bounds := List.mem_range'_1.mp (List.of_mem_zip inZip).1
      exact ⟨len ▸ bounds.2, fun isP => Nat.lt_irrefl y
        (Nat.lt_of_lt_of_le (ready.patternVars y isP) (Nat.le_trans ready.le bounds.1))⟩
    · have free := ready.free s (.tail _ member) y inside
      exact ⟨Nat.lt_of_lt_of_le free.1 (Nat.le_add_right _ _), free.2⟩
  · intro row' member
    rw [specialize_eq] at member
    obtain ⟨row, inside, member'⟩ := List.mem_flatMap.mp member
    have typed := (keeps row inside).typed row' member'
    rwa [List.map_append, genLocals_types, types]
  · intro row' member
    rw [specialize_eq] at member
    obtain ⟨row, inside, member'⟩ := List.mem_flatMap.mp member
    exact ((keeps row inside).inScope row' member').mono (Nat.le_add_right _ _)

/-- A constructor at the head of a row is one of the type of the column. -/
theorem head_con_typed {subject : Texpr} {bindings : List (TVar × Texpr)} {pat : Pattern}
    {con : Constructor} {t : Ty} (headed : head subject bindings pat = .con con)
    (typed : sig.WellTyped (.one t) pat) : ∃ conTs, sig.args t con = some conTs := by
  induction bindings, pat using head.induct subject with
  | case1 => simp [head] at headed
  | case2 bindings con' patterns p notNull =>
    obtain rfl : con' = con := by simpa [head] using headed
    obtain ⟨conTs, conTyped, -⟩ := wellTyped_constructor.mp typed
    exact ⟨conTs, conTyped⟩
  | case3 bindings v pat p ih => exact ih (by simpa [head] using headed) (wellTyped_bind.mp typed)
  | case4 | case5 | case6 | case7 => simp_all [head]

theorem head_con_ne_null {subject : Texpr} {bindings : List (TVar × Texpr)} {pat : Pattern}
    {con : Constructor} (headed : head subject bindings pat = .con con) :
    (Constructor.conConst .tNull).equal con = false := by
  induction bindings, pat using head.induct subject with
  | case1 => simp [head] at headed
  | case2 bindings con' patterns p notNull =>
    obtain rfl : con' = con := by simpa [head] using headed
    cases con' <;> simp_all [Constructor.equal, eq_comm]
  | case3 bindings v pat p ih => exact ih (by simpa [head] using headed)
  | case4 | case5 | case6 | case7 => simp_all [head]

theorem headOf_con_ne_null {row : Row} {con : Constructor}
    (headed : headOf subject.expr row = .con con) :
    (Constructor.conConst .tNull).equal con = false := by
  rcases row with ⟨case, bindings, _ | ⟨pat, patterns⟩⟩
  · simp [headOf] at headed
  · exact head_con_ne_null headed

theorem SwitchReady.headTyped (ready : SwitchReady sig P n0 n Γ subject subjects rows)
    {con : Constructor} (heads : ∃ row ∈ rows, headOf subject.expr row = .con con) :
    ∃ conTs, sig.args subject.etype con = some conTs := by
  obtain ⟨row, member, headed⟩ := heads
  have typed := ready.rowTyped row member
  rcases row with ⟨case, bindings, _ | ⟨pat, patterns⟩⟩
  · simp [headOf] at headed
  · exact head_con_typed headed (allTyped_cons.mp typed).1

/-- The branch for one constructor: the tree under its `Bind` has the outcome of the rows. -/
theorem compileCase_correct (uniform : sig.UniformFields) (disjoint : S.Disjoint sig)
    (ready : SwitchReady sig P n0 n Γ subject subjects rows) {con : Constructor} {conTs : List Ty}
    (conTyped : sig.args subject.etype con = some conTs) {dt : Dt Ty}
    (right : ∀ ρ, InOrder S ρ (specialize subject.expr con rows)
        (values S ρ ((genLocals n (getSubSubjects sig subject con)).2 ++ subjects)) →
      Outcome S P (n + (getSubSubjects sig subject con).length) ρ
        (specialize subject.expr con rows)
        (values S ρ ((genLocals n (getSubSubjects sig subject con)).2 ++ subjects)) (S.evalDt ρ dt))
    (inOrder : InOrder S ρ rows (values S ρ (subject :: subjects)))
    (seen : (S.view con (S.eval ρ subject.expr)).isSome) :
    Outcome S P n ρ rows (values S ρ (subject :: subjects))
      (S.evalDt ρ (.bind (genLocals n (getSubSubjects sig subject con)).1 dt)) := by
  obtain ⟨subs, seen⟩ := Option.isSome_iff_exists.mp seen
  have subFree : ∀ s ∈ getSubSubjects sig subject con, ∀ y ∈ s.expr.vars, y < n := by
    intro s member y inside
    obtain ⟨i, -, rfl⟩ := List.mem_map.mp member
    exact (ready.subjectFree y inside).1
  have subValues : values S ρ (getSubSubjects sig subject con) = subs := values_getSubSubjects seen
  rw [evalDt, bindAll_genLocals subFree, subValues]
  generalize getSubSubjects sig subject con = subSubjects at *
  have len : (List.range' n subSubjects.length).length = subs.length := by simp [← subValues, values]
  -- in the branch, the locals have the sub-values, and the rest is as before
  have agree : Agree P n ρ (extend ρ ((List.range' n subSubjects.length).zip subs)) :=
    fun y below _ => (agree_extend_new len fun member =>
      Nat.lt_irrefl y (Nat.lt_of_lt_of_le below (List.mem_range'_1.mp member).1)).symm
  have localValues : values S (extend ρ ((List.range' n subSubjects.length).zip subs))
      (genLocals n subSubjects).2 = subs := by
    rw [values_genLocals, extend_new len List.nodup_range']
  set ρ1 := extend ρ ((List.range' n subSubjects.length).zip subs)
  have sameValues := values_agree (S := S) agree ready.free
  have branchValues : values S ρ1 ((genLocals n subSubjects).2 ++ subjects) =
      subs ++ values S ρ1 subjects := by
    rw [values, List.map_append]
    exact congrArg (· ++ _) localValues
  have made : S.view con (S.eval ρ1 subject.expr) = some subs := by
    rwa [← eval_agree agree ready.subjectFree]
  have keeps := fun row member =>
    specialized_keeps uniform disjoint (ready.row row member) ready.subjectFree conTyped
  have refines := refines_of_keeps keeps (values S ρ1 subjects) made
  have overtakes : KeepsOrder (Compile.specialized subject.expr con) rows :=
    fun first member _ inside row member' _ inside' =>
      specialized_overtaken uniform (ready.row first member) (ready.row row member')
        ready.subjectFree conTyped inside inside'
  have inOrder1 := inOrder_agree ready.inScope ready.le agree inOrder
  rw [sameValues] at inOrder1
  have outcome := right ρ1 (by
    rw [branchValues, specialize_eq]
    exact inOrder_flatMap refines ready.inScope overtakes inOrder1)
  rw [branchValues, specialize_eq] at outcome
  refine outcome_agree ready.inScope ready.le agree ?_
  rw [sameValues]
  exact outcome_flatMap refines ready.inScope (outcome_mono (Nat.le_add_right _ _) outcome)

/-- The cases of a switch: the case of a constructor that made the subject is right, and
there is none only if no constructor made it. -/
theorem compileCases_correct (uniform : ctx.sig.UniformFields) (disjoint : S.Disjoint ctx.sig)
    (below : CorrectBelow S ctx P n0 (rowsWeight rows) (subjects.length + 1))
    (ready : SwitchReady ctx.sig P n0 n Γ subject subjects rows)
    (sigma : List (Constructor × Bool))
    (heads : ∀ entry ∈ sigma, ∃ row ∈ rows, headOf subject.expr row = .con entry.1) :
    ∃ cases n', compileCases ctx n subject subjects rows sigma heads = .ok (cases, n') ∧ n ≤ n' ∧
      ∀ ρ, InOrder S ρ rows (values S ρ (subject :: subjects)) →
        (∀ reached, S.evalCases ρ (S.eval ρ subject.expr) cases = some reached →
          Outcome S P n ρ rows (values S ρ (subject :: subjects)) reached) ∧
        (S.evalCases ρ (S.eval ρ subject.expr) cases = none →
          ∀ entry ∈ sigma, S.view entry.1 (S.eval ρ subject.expr) = none) := by
  induction sigma generalizing n with
  | nil =>
    exact ⟨[], n, by rw [compileCases], Nat.le_refl n, fun ρ _ => by simp [evalCases]⟩
  | cons entry sigma ih =>
    obtain ⟨con, unguarded⟩ := entry
    have con_head := heads _ List.mem_cons_self
    obtain ⟨conTs, conTyped⟩ := ready.headTyped con_head
    obtain ⟨dt, n1, returned, le1, right⟩ := below _ _ _ _
      (.left _ _ (rowsWeight_specialize_lt con_head)) (ready.specialized uniform disjoint conTyped)
    have le1 : n ≤ n1 := Nat.le_trans (Nat.le_add_right _ _) le1
    obtain ⟨cases, n', returned', le', later⟩ := ih (ready.mono le1)
      fun entry member => heads entry (.tail _ member)
    refine ⟨(con, unguarded, .bind (genLocals n (getSubSubjects ctx.sig subject con)).1 dt) :: cases,
      n', ?_, Nat.le_trans le1 le', fun ρ inOrder => ?_⟩
    · rw [compileCases]
      simp [returned, returned', Bind.bind, Except.bind]
    · have here := compileCase_correct uniform disjoint ready conTyped right inOrder
      obtain ⟨found, missed⟩ := later ρ inOrder
      rw [evalCases]
      split
      · rename_i seen
        exact ⟨fun reached same => Option.some.inj same ▸ here seen, fun none => by cases none⟩
      · rename_i unseen
        refine ⟨fun reached same => outcome_mono le1 (found reached same), fun none => ?_⟩
        intro entry member
        rcases List.mem_cons.mp member with rfl | member
        · simpa using unseen
        · exact missed none entry member

/-! ## The default of a switch -/

/-- A value is not seen by the heads of the rows if no constructor in the table made it,
and no row is for `null` or the value is not `null`. -/
theorem unseen_of {v : Value} (missed : ∀ con, (∃ row ∈ rows, headOf subject.expr row = .con con) →
      S.view con v = none)
    (notNull : S.isNull v = false ∨ rows.filterMap (nullRow subject.expr) = []) :
    Unseen S subject.expr rows v := by
  rintro row member bindings pat patterns stripped con patterns1 p rfl
  by_cases same : con = .conConst .tNull
  · subst same
    rcases notNull with notNull | noRows
    · simpa [isNull] using notNull
    · have kept : nullRow subject.expr row = some ⟨row.case, bindings, patterns⟩ := by
        rw [nullRow_strip, stripped]
        simp [nullRow, head]
      have inside := List.mem_filterMap.mpr ⟨row, member, kept⟩
      simp [noRows] at inside
  · refine missed con ⟨row, member, ?_⟩
    rw [← headOf_strip, stripped]
    rcases con with (_ | _ | _ | _ | _ | _ | _) | _ | _ | _ | _ | _ <;> simp_all [headOf, head]

theorem SwitchReady.others (ready : SwitchReady sig P n0 n Γ subject subjects rows)
    {g : Row → List Row} {M : Value → List Value → Prop}
    (keeps : ∀ row ∈ rows, Keeps S sig P n0 n M subject.expr (g row)
      (subjects.map Subject.etype) row) : Ready sig P n0 n Γ subjects (rows.flatMap g) where
  le := ready.le
  patternVars := ready.patternVars
  below := ready.below
  typed s member := ready.typed s (.tail _ member)
  free s member := ready.free s (.tail _ member)
  rowTyped row' member := by
    obtain ⟨row, inside, member'⟩ := List.mem_flatMap.mp member
    exact (keeps row inside).typed row' member'
  inScope row' member := by
    obtain ⟨row, inside, member'⟩ := List.mem_flatMap.mp member
    exact (keeps row inside).inScope row' member'

/-- The default tree has the outcome of the rows for a value that no head sees. -/
theorem default_correct (ready : SwitchReady sig P n0 n Γ subject subjects rows) (le : n ≤ n')
    {dt : Dt Ty}
    (right : InOrder S ρ (default subject.expr rows) (values S ρ subjects) →
      Outcome S P n' ρ (default subject.expr rows) (values S ρ subjects) (S.evalDt ρ dt))
    (inOrder : InOrder S ρ rows (values S ρ (subject :: subjects)))
    (unseen : Unseen S subject.expr rows (S.eval ρ subject.expr)) :
    Outcome S P n ρ rows (values S ρ (subject :: subjects)) (S.evalDt ρ dt) := by
  have keeps := fun row member =>
    defaulted_keeps (S := S) (ready.row row member) ready.subjectFree member
  have refines := refines_of_keeps (ρ := ρ) keeps (values S ρ subjects) ⟨unseen, rfl⟩
  have overtakes : KeepsOrder (defaulted subject.expr) rows :=
    fun first member _ inside row member' _ inside' =>
      defaulted_overtaken (ready.row first member) (ready.row row member') ready.subjectFree
        inside inside'
  rw [default_eq] at right
  exact outcome_flatMap refines ready.inScope (outcome_mono le
    (right (inOrder_flatMap refines ready.inScope overtakes inOrder)))

/-- The tree for `null` has the outcome of the rows for `null`. -/
theorem null_correct (disjoint : S.Disjoint sig)
    (ready : SwitchReady sig P n0 n Γ subject subjects rows) (le : n ≤ n') {dt : Dt Ty}
    (right : InOrder S ρ (rows.filterMap (nullRow subject.expr) ++ default subject.expr rows)
        (values S ρ subjects) →
      Outcome S P n' ρ (rows.filterMap (nullRow subject.expr) ++ default subject.expr rows)
        (values S ρ subjects) (S.evalDt ρ dt))
    (inOrder : InOrder S ρ rows (values S ρ (subject :: subjects)))
    (isNull : S.isNull (S.eval ρ subject.expr) = true) :
    Outcome S P n ρ rows (values S ρ (subject :: subjects)) (S.evalDt ρ dt) := by
  have ok := fun row member => ready.row row member
  have keeps := fun row member => merged_keeps disjoint (ok row member) ready.subjectFree
  have refines := refines_of_keeps (ρ := ρ) keeps (values S ρ subjects) ⟨isNull, rfl⟩
  have overtakes : KeepsOrder (merged subject.expr) rows :=
    fun first member _ inside row member' _ inside' =>
      merged_overtaken (ok first member) (ok row member') ready.subjectFree inside inside'
  have firsts := first_null_step disjoint ok ready.subjectFree isNull inOrder
  have merged := inOrder_flatMap refines ready.inScope overtakes inOrder
  rw [nulls_default_eq] at right
  exact outcome_flatMap refines ready.inScope (outcome_of_same mem_nulls_default firsts
    (outcome_mono le (right (inOrder_of_same mem_nulls_default firsts merged))))

theorem compileSwitch_correct (uniform : ctx.sig.UniformFields) (disjoint : S.Disjoint ctx.sig)
    (below : CorrectBelow S ctx P n0 (rowsWeight rows) (subjects.length + 1))
    (ready : SwitchReady ctx.sig P n0 n Γ subject subjects rows) {sigma : List (Constructor × Bool)}
    {null : List Row} (column : getColumnSigma subject.expr [] [] rows = .ok (sigma, null)) :
    Correct S P n (subject :: subjects) rows
      (compileSwitch ctx n subject subjects rows sigma null column) := by
  obtain ⟨nulls, sound, -⟩ := getColumnSigma_sound column
  rw [List.nil_append] at nulls
  obtain ⟨cases, n1, returned, le1, casesRight⟩ := compileCases_correct uniform disjoint below ready
    (ctx.order.order sigma) fun entry member => by
      simpa using sound entry (ctx.order.mem_order.mp member)
  have defaultReady : Ready ctx.sig P n0 n1 Γ subjects (default subject.expr rows) := by
    rw [default_eq]
    exact (ready.others fun row member =>
      defaulted_keeps (S := S) (ready.row _ member) ready.subjectFree member).mono le1
        (List.Subset.refl _)
  obtain ⟨dtDefault, n2, returned2, le2, defaultRight⟩ := below _ _ _ _
    (Prod.Lex.right' _ (rowsWeight_default_le _ _) (by omega)) defaultReady
  -- a constructor at a head is tested by the switch
  have tested : ∀ con, (∃ row ∈ rows, headOf subject.expr row = .con con) →
      ∃ entry ∈ ctx.order.order sigma, entry.1 = con := by
    intro con isHead
    obtain ⟨entry, member, equal⟩ := getColumnSigma_complete column (.inl isHead)
    obtain ⟨conTs, conTyped⟩ := ready.headTyped isHead
    obtain ⟨conTs', conTyped'⟩ := ready.headTyped (by simpa using sound entry member)
    exact ⟨entry, ctx.order.mem_order.mpr member, uniform.eq_of_equal conTyped' conTyped equal⟩
  set switchDt : Dt Ty := if cases.isEmpty then dtDefault else .switch subject cases dtDefault
    with isSwitch
  have evalSwitch : ∀ ρ, S.evalDt ρ switchDt =
      (S.evalCases ρ (S.eval ρ subject.expr) cases).getD (S.evalDt ρ dtDefault) := by
    intro ρ
    rw [isSwitch]
    cases cases with
    | nil => simp [evalCases]
    | cons case cases =>
      simp only [List.isEmpty_cons, Bool.false_eq_true, if_false, evalDt]
      split <;> simp_all
  have switchRight : ∀ ρ, InOrder S ρ rows (values S ρ (subject :: subjects)) →
      S.isNull (S.eval ρ subject.expr) = false ∨ rows.filterMap (nullRow subject.expr) = [] →
        Outcome S P n ρ rows (values S ρ (subject :: subjects)) (S.evalDt ρ switchDt) := by
    intro ρ inOrder notNull
    obtain ⟨found, missed⟩ := casesRight ρ inOrder
    rw [evalSwitch]
    cases reached : S.evalCases ρ (S.eval ρ subject.expr) cases with
    | some result => exact found result reached
    | none =>
      refine default_correct ready le1 (defaultRight ρ) inOrder (unseen_of ?_ notNull)
      intro con isHead
      obtain ⟨entry, member, rfl⟩ := tested con isHead
      exact missed reached entry member
  cases null with
  | nil =>
    refine ⟨if ctx.isExplicitNull subject.etype then .guardNull subject dtDefault switchDt
      else switchDt, n2, ?_, Nat.le_trans le1 le2, fun ρ inOrder => ?_⟩
    · rw [compileSwitch]
      simp [returned, returned2, isSwitch, Bind.bind, Except.bind]
    · have noRows := nulls.symm
      split
      · rw [evalDt]
        split
        · rename_i isNull
          refine default_correct ready le1 (defaultRight ρ) inOrder (unseen_of ?_ (.inr noRows))
          intro con isHead
          obtain ⟨conTs, conTyped⟩ := ready.headTyped isHead
          obtain ⟨row, -, headed⟩ := isHead
          exact disjoint.unseen (t := subject.etype) (.inr rfl) (.inl (by simp [conTyped]))
            (headOf_con_ne_null headed) isNull
        · exact switchRight ρ inOrder (.inr noRows)
      · exact switchRight ρ inOrder (.inr noRows)
  | cons nullRow1 null =>
    have nullReady : Ready ctx.sig P n0 n2 Γ subjects
        (rows.filterMap (nullRow subject.expr) ++ default subject.expr rows) := by
      rw [nulls_default_eq]
      exact (ready.others fun row member => merged_keeps disjoint (ready.row _ member)
        ready.subjectFree).mono (Nat.le_trans le1 le2)
          fun row member => (mem_nulls_default row).mp member
    have lighter := (rowsWeight_null_default subject.expr rows).2 (by simp [← nulls])
    obtain ⟨dtNull, n3, returned3, le3, nullRight⟩ :=
      below _ _ _ _ (.left _ _ (by simpa using lighter)) nullReady
    refine ⟨.guardNull subject dtNull switchDt, n3, ?_,
      Nat.le_trans le1 (Nat.le_trans le2 le3), fun ρ inOrder => ?_⟩
    · rw [compileSwitch]
      rw [← nulls, List.cons_append] at returned3
      simp [returned, returned2, returned3, isSwitch, Bind.bind, Except.bind]
    · rw [evalDt]
      split
      · rename_i isNull
        exact null_correct disjoint ready (Nat.le_trans le1 le2) (nullRight ρ) inOrder isNull
      · rename_i notNull
        exact switchRight ρ inOrder (.inl (by simpa using notNull))

/-! ## Extractors -/

theorem Ready.row (ready : Ready sig P n0 n Γ (subject :: subjects) rows) (row : Row)
    (member : row ∈ rows) :
    ExtractorRow sig P n0 n subject.etype (subjects.map Subject.etype) row where
  typed := ready.rowTyped row member
  inScope := ready.inScope row member

/-- The invariant of the call with the columns of the extractors. -/
theorem extracted_ready {entries : List (ExBinding Ty)} {cols : List (Subject Ty)}
    {num fresh : Nat} {g : Row → Row} (ready : Ready sig P n0 n Γ (subject :: subjects) rows)
    (known : Entries sig P Γ n num fresh cols entries) (len : cols.length = num)
    (extracted : ∀ row ∈ rows, Extracted subject.expr num entries row (g row)) :
    Ready sig P n0 fresh
      (extend Γ ((entries.map ExBinding.v).zip (entries.map ExBinding.etype)))
      (subject :: cols ++ subjects) (rows.map g) := by
  have new : ∀ y < n, y ∉ entries.map ExBinding.v := fun y below member => by
    obtain ⟨entry, inside, rfl⟩ := List.mem_map.mp member
    exact Nat.lt_irrefl _ (Nat.lt_of_lt_of_le below (known.made entry inside).1)
  have old : ∀ y < n, extend Γ ((entries.map ExBinding.v).zip (entries.map ExBinding.etype)) y =
      Γ y := fun y below => agree_extend_new (by simp) (new y below)
  have oldSubject : ∀ s ∈ subject :: subjects,
      sig.etype (extend Γ ((entries.map ExBinding.v).zip (entries.map ExBinding.etype))) s.expr =
          s.etype ∧ ∀ y ∈ s.expr.vars, y < fresh ∧ ¬ P y := by
    intro s member
    refine ⟨?_, fun y inside => ⟨Nat.lt_of_lt_of_le (ready.free s member y inside).1 known.least,
      (ready.free s member y inside).2⟩⟩
    rw [← ready.typed s member]
    exact sig.etype_congr _ _ _ fun y inside => old y (ready.free s member y inside).1
  have newSubject : ∀ s ∈ cols,
      sig.etype (extend Γ ((entries.map ExBinding.v).zip (entries.map ExBinding.etype))) s.expr =
          s.etype ∧ ∀ y ∈ s.expr.vars, y < fresh ∧ ¬ P y := by
    intro s member
    obtain ⟨entry, inside, rfl⟩ := known.named s member
    have nodup : (((entries.map ExBinding.v).zip (entries.map ExBinding.etype)).map
        Prod.fst).Nodup := by
      rw [map_fst_zip (by simp)]
      exact known.nodup
    have pair : (entry.v, entry.etype) ∈
        (entries.map ExBinding.v).zip (entries.map ExBinding.etype) := by
      rw [List.zip_map']
      exact List.mem_map.mpr ⟨entry, inside, rfl⟩
    refine ⟨(sig.etype_local _ _).trans (extend_of_mem (ρ := Γ) nodup pair), fun y read => ?_⟩
    obtain rfl : y = entry.v := by simpa [Texpr.vars] using read
    exact ⟨(known.made entry inside).2, fun isP => Nat.lt_irrefl _ (Nat.lt_of_lt_of_le
      (ready.patternVars _ isP) (Nat.le_trans ready.le (known.made entry inside).1))⟩
  have all : ∀ s ∈ subject :: cols ++ subjects, s ∈ subject :: subjects ∨ s ∈ cols := by
    intro s member
    simp only [List.cons_append, List.mem_cons, List.mem_append] at member ⊢
    exact member.elim (fun h => .inl (.inl h)) fun h => h.elim .inr fun h => .inl (.inr h)
  refine ⟨Nat.le_trans ready.le known.least, ready.patternVars, ?_, ?_, ?_, ?_, ?_⟩
  · intro y below free
    rw [old y (Nat.lt_of_lt_of_le below ready.le), ready.below y below free]
  · exact fun s member =>
      (all s member).elim (fun h => (oldSubject s h).1) fun h => (newSubject s h).1
  · exact fun s member =>
      (all s member).elim (fun h => (oldSubject s h).2) fun h => (newSubject s h).2
  · intro row' member
    obtain ⟨row, inside, rfl⟩ := List.mem_map.mp member
    simpa using ((extracted row inside).keep known len ready.below
      (ready.typed subject List.mem_cons_self) (ready.row _ inside)
      (ready.free subject List.mem_cons_self)).1
  · intro row' member
    obtain ⟨row, inside, rfl⟩ := List.mem_map.mp member
    exact ((extracted row inside).keep known len ready.below
      (ready.typed subject List.mem_cons_self) (ready.row _ inside)
      (ready.free subject List.mem_cons_self)).2.mono known.least

theorem compileExtractors_correct
    (below : CorrectBelow S ctx P n0 (rowsWeight rows) (subjects.length + 1))
    (ready : Ready ctx.sig P n0 n Γ (subject :: subjects) rows)
    (extractor : ∃ row ∈ rows, headOf subject.expr row = .extractor) :
    Correct S P n (subject :: subjects) rows
      (compileExtractors ctx n subject subjects rows extractor) := by
  have none : Entries ctx.sig P Γ n (numExtractors subject.expr rows) n [] [] := by
    constructor <;> simp
  obtain ⟨result, run, -, width, known, all⟩ := extractRows_spec ready.le ready.below
    (ready.typed subject List.mem_cons_self) (ready.free subject List.mem_cons_self) none
    (by simp) rfl fun row member => ready.row row member
  rw [List.nil_append] at known
  rw [List.length_nil] at run
  obtain ⟨g, isMap, extracted⟩ := exists_map_of_forall₂
    (fun _ _ _ first second => first.unique known.distinct second) all
  have lighter := (extractRows_weight run).2 extractor
  obtain ⟨dt, n', returned, le, right⟩ := below _ _ _ _ (.left _ _ lighter)
    (isMap ▸ extracted_ready ready known width extracted)
  refine ⟨.bind (result.bindings.map fun entry => (entry.v, entry.e1)) dt, n', ?_,
    Nat.le_trans known.least le, fun ρ inOrder => ?_⟩
  · rw [compileExtractors]
    split
    · rename_i failed
      exact absurd (run.symm.trans failed) (by simp)
    · rename_i result' run'
      obtain rfl : result = result' := Except.ok.inj (run.symm.trans run')
      rw [List.cons_append] at returned
      simp [returned, Bind.bind, Except.bind]
  rw [evalDt]
  have keys : (result.bindings.map fun entry => (entry.v, entry.e1)).map Prod.fst =
      result.bindings.map ExBinding.v := by simp [Function.comp_def]
  have new : ∀ y < n, y ∉ result.bindings.map ExBinding.v := fun y below member => by
    obtain ⟨entry, inside, rfl⟩ := List.mem_map.mp member
    exact Nat.lt_irrefl _ (Nat.lt_of_lt_of_le below (known.made entry inside).1)
  have agree : Agree P n ρ (S.bindAll ρ (result.bindings.map fun entry => (entry.v, entry.e1))) :=
    fun y below _ => (bindAll_of_notMem (by rw [keys]; exact new y below)).symm
  -- the variables hold the results of the extractors
  have results : ∀ entry ∈ result.bindings,
      S.bindAll ρ (result.bindings.map fun entry => (entry.v, entry.e1)) entry.v =
        S.eval (S.bindAll ρ (result.bindings.map fun entry => (entry.v, entry.e1))) entry.e1 := by
    intro entry inside
    rw [← eval_agree agree (known.free entry inside)]
    refine bindAll_of_mem (keys ▸ known.nodup) ?_ (List.mem_map.mpr ⟨entry, inside, rfl⟩)
    intro b member y read
    obtain ⟨entry', inside', rfl⟩ := List.mem_map.mp member
    rw [keys]
    exact new y (known.free entry' inside' y read).1
  set ρ1 := S.bindAll ρ (result.bindings.map fun entry => (entry.v, entry.e1))
  have ok := fun row member => ready.row row member
  have free := ready.free subject List.mem_cons_self
  have refines : ∀ row ∈ rows, Refines S ρ1 [g row]
      (values S ρ1 (subject :: result.subjects ++ subjects)) row
      (values S ρ1 (subject :: subjects)) := fun row member => by
    have step := (extracted row member).refines known width (ok row member) free results
      (values S ρ1 subjects)
    simpa [values] using step
  have overtakes : KeepsOrder (fun row => [g row]) rows := by
    intro first member first' inside row member' row' inside'
    obtain rfl := List.mem_singleton.mp inside
    obtain rfl := List.mem_singleton.mp inside'
    exact (extracted first member).overtaken (ok first member) (ok row member') free known width
      (extracted row member')
  have sameValues := values_agree (S := S) agree ready.free
  have inOrder1 := inOrder_agree ready.inScope ready.le agree inOrder
  rw [sameValues] at inOrder1
  have flat : rows.flatMap (fun row => [g row]) = result.rows := by rw [isMap, List.map_eq_flatMap]
  have outcome := right ρ1 (flat ▸ inOrder_flatMap refines ready.inScope overtakes inOrder1)
  rw [← flat] at outcome
  refine outcome_agree ready.inScope ready.le agree ?_
  rw [sameValues]
  exact outcome_flatMap refines ready.inScope (outcome_mono known.least outcome)

/-! ## Preparing a switch -/

theorem expand_ready (ready : Ready sig P n0 n Γ (subject :: subjects) rows) :
    Ready sig P n0 n Γ (subject :: subjects) (expand rows) ∧
      ∀ row ∈ expand rows, headOf subject.expr row ≠ .unexpected := by
  have source : ∀ row' ∈ expand rows, ∃ row ∈ rows, row' ∈ expandedRows row :=
    fun row' member => List.mem_flatMap.mp member
  refine ⟨{ ready with rowTyped := ?_, inScope := ?_ }, ?_⟩
  · intro row' member
    obtain ⟨row, inside, member'⟩ := source row' member
    exact (expandedRows_keep (ready.rowTyped row inside) (ready.inScope row inside) member').1
  · intro row' member
    obtain ⟨row, inside, member'⟩ := source row' member
    exact (expandedRows_keep (ready.rowTyped row inside) (ready.inScope row inside) member').2
  · intro row' member
    obtain ⟨row, inside, member'⟩ := source row' member
    have typed := ready.rowTyped row inside
    rcases row with ⟨case, bindings, _ | ⟨pat, patterns⟩⟩
    · simp at typed
    have headTyped := (allTyped_cons.mp typed).1
    obtain ⟨pat', alternative, rfl⟩ := (mem_expandedRows headTyped).mp member'
    exact head_alternatives headTyped alternative subject.expr bindings

theorem expand_correct (ready : Ready sig P n0 n Γ (subject :: subjects) rows)
    {run : Except MatchFailure (Dt Ty × Nat)}
    (correct : Correct S P n (subject :: subjects) (expand rows) run) :
    Correct S P n (subject :: subjects) rows run :=
  correct_flatMap (g := expandedRows)
    (fun _ row member => expandedRows_refines (ready.rowTyped row member) _) ready.inScope
    (fun first member _ inside row member' _ inside' =>
      expandedRows_overtaken (ready.rowTyped first member) inside
        (ready.rowTyped row member') inside')
    correct

theorem sort_map {α β : Type} (f : α → β) (i cur : Nat) (acc l : List α) :
    sort i cur (acc.map f) (l.map f) = (sort i cur acc l).map f := by
  induction l generalizing cur acc with
  | nil => rfl
  | cons x l ih =>
    by_cases found : i = cur
    · simp [sort, found]
    · simpa [sort, found] using ih (cur + 1) (x :: acc)

/-- Permuting the columns. -/
theorem select_ready (ready : Ready sig P n0 n Γ subjects rows) :
    Ready sig P n0 n Γ (selectColumn subjects rows).1 (selectColumn subjects rows).2 ∧
      ∀ run, Correct S P n (selectColumn subjects rows).1 (selectColumn subjects rows).2 run →
        Correct S P n subjects rows run := by
  rcases selectColumn_eq subjects rows with same | ⟨i, same⟩
  · rw [same]
    exact ⟨ready, fun _ correct => correct⟩
  rw [same]
  have permuted : (sort i 0 [] subjects).Perm subjects := by simpa using sort_perm i 0 [] subjects
  have types : (sort i 0 [] subjects).map Subject.etype =
      sort i 0 [] (subjects.map Subject.etype) := (sort_map Subject.etype i 0 [] subjects).symm
  have sameValues : ∀ ρ, values S ρ (sort i 0 [] subjects) = sort i 0 [] (values S ρ subjects) :=
    fun ρ => (sort_map (fun s : Subject Ty => S.eval ρ s.expr) i 0 [] subjects).symm
  have width : ∀ row ∈ rows, row.patterns.length = subjects.length := fun row member => by
    simpa using (ready.rowTyped row member).length_eq
  refine ⟨{ ready with typed := ?_, free := ?_, rowTyped := ?_, inScope := ?_ }, ?_⟩
  · exact fun s member => ready.typed s (permuted.mem_iff.mp member)
  · exact fun s member => ready.free s (permuted.mem_iff.mp member)
  · intro row' member
    obtain ⟨row, inside, rfl⟩ := List.mem_map.mp member
    rw [types]
    exact (sortRow_keep i (ready.rowTyped row inside) (ready.inScope row inside)).1
  · intro row' member
    obtain ⟨row, inside, rfl⟩ := List.mem_map.mp member
    exact (sortRow_keep i (ready.rowTyped row inside) (ready.inScope row inside)).2
  · intro run correct
    rw [List.map_eq_flatMap] at correct
    refine correct_flatMap ?_ ready.inScope ?_ correct
    · intro ρ row member
      rw [sameValues]
      exact sortRow_refines i (by simp [width row member, values])
    · intro first member first' inside row member' row' inside' overtaken
      obtain rfl := List.mem_singleton.mp inside
      obtain rfl := List.mem_singleton.mp inside'
      exact sortRow_overtaken i ((width first member).trans (width row member').symm) overtaken

/-- Preparing leaves a first column with heads that can be tested or are extractors. -/
theorem prepare_ready {s : Subject Ty} {ss : List (Subject Ty)}
    (ready : Ready sig P n0 n Γ (s :: ss) rows) :
    ∃ subject subjects' rows', prepare (s :: ss) rows = (subject :: subjects', rows') ∧
      Ready sig P n0 n Γ (subject :: subjects') rows' ∧
      (∀ row ∈ rows', headOf subject.expr row ≠ .unexpected) ∧
      ∀ run, Correct S P n (subject :: subjects') rows' run → Correct S P n (s :: ss) rows run := by
  obtain ⟨expanded, -⟩ := expand_ready ready
  obtain ⟨selected, select⟩ := select_ready (S := S) expanded
  cases chosen : selectColumn (s :: ss) (expand rows) with
  | mk subjects' rows' =>
    rw [chosen] at selected select
    cases subjects' with
    | nil =>
      have := length_selectColumn (s :: ss) (expand rows)
      simp [chosen] at this
    | cons subject subjects' =>
      obtain ⟨ready', known⟩ := expand_ready selected
      exact ⟨subject, subjects', expand rows', by simp [prepare, chosen], ready', known,
        fun run correct => expand_correct ready (select run (expand_correct selected correct))⟩

/-- A call that makes a switch. -/
theorem compile_of_column {fresh : Nat} {subjects' : List (Subject Ty)} {row : Row}
    {rest rows' null : List Row} {sigma : List (Constructor × Bool)}
    (notWild : ¬ row.patterns.all isWildcardPattern = true)
    (prepared : prepare subjects (row :: rest) = (subject :: subjects', rows'))
    (column : getColumnSigma subject.expr [] [] rows' = .ok (sigma, null)) :
    compile ctx fresh subjects (row :: rest) =
      compileSwitch ctx fresh subject subjects' rows' sigma null column := by
  rw [compile, if_neg notWild]
  split
  · rename_i prepared'
    simp [prepared] at prepared'
  · rename_i subject1 subjects1 rows1 prepared'
    obtain ⟨⟨rfl, rfl⟩, rfl⟩ : (subject = subject1 ∧ subjects' = subjects1) ∧ rows' = rows1 := by
      simpa [prepared] using prepared'
    split
    · rename_i sigma1 null1 column'
      obtain ⟨rfl, rfl⟩ := Prod.mk.inj (Except.ok.inj (column.symm.trans column'))
      rfl
    all_goals
      rename_i column'
      exact absurd (column.symm.trans column') (by simp)

/-- A call that meets an extractor. -/
theorem compile_of_extractor {fresh : Nat} {subjects' : List (Subject Ty)} {row : Row}
    {rest rows' : List Row} (notWild : ¬ row.patterns.all isWildcardPattern = true)
    (prepared : prepare subjects (row :: rest) = (subject :: subjects', rows'))
    (column : getColumnSigma subject.expr [] [] rows' = .error .extractor) :
    compile ctx fresh subjects (row :: rest) =
      compileExtractors ctx fresh subject subjects' rows' (getColumnSigma_extractor column) := by
  rw [compile, if_neg notWild]
  split
  · rename_i prepared'
    simp [prepared] at prepared'
  · rename_i subject1 subjects1 rows1 prepared'
    obtain ⟨⟨rfl, rfl⟩, rfl⟩ : (subject = subject1 ∧ subjects' = subjects1) ∧ rows' = rows1 := by
      simpa [prepared] using prepared'
    split
    · rename_i column'
      exact absurd (column.symm.trans column') (by simp)
    · rfl
    · rename_i notExtractor column'
      exact absurd (Except.error.inj (column'.symm.trans column)) notExtractor

/-- The call for a first row that is not made of wildcards. -/
theorem compile_prepared_correct (uniform : ctx.sig.UniformFields) (disjoint : S.Disjoint ctx.sig)
    {row : Row} {rest rows' : List Row} {subject : Subject Ty} {subjects' : List (Subject Ty)}
    (notWild : ¬ row.patterns.all isWildcardPattern = true)
    (prepared : prepare subjects (row :: rest) = (subject :: subjects', rows'))
    (below : CorrectBelow S ctx P n0 (rowsWeight rows') (subjects'.length + 1))
    (ready : Ready ctx.sig P n0 n Γ (subject :: subjects') rows')
    (known : ∀ row ∈ rows', headOf subject.expr row ≠ .unexpected) :
    Correct S P n (subject :: subjects') rows' (compile ctx n subjects (row :: rest)) := by
  rcases @getColumnSigma_total subject.expr [] [] rows' known with ⟨⟨sigma, null⟩, column⟩ | column
  · rw [compile_of_column notWild prepared column]
    exact compileSwitch_correct uniform disjoint below
      { ready with known := fun row member =>
        ⟨((getColumnSigma_sound column).2.2 row member).1, known row member⟩ } column
  · rw [compile_of_extractor notWild prepared column]
    exact compileExtractors_correct below ready (getColumnSigma_extractor column)

/-! ## The induction -/

/-- One call of `compile`, when the calls it makes are right. -/
theorem compile_step (uniform : ctx.sig.UniformFields) (disjoint : S.Disjoint ctx.sig)
    (ready : Ready ctx.sig P n0 n Γ subjects rows)
    (below : CorrectBelow S ctx P n0 (rowsWeight rows) subjects.length) :
    Correct S P n subjects rows (compile ctx n subjects rows) := by
  cases rows with
  | nil =>
    refine ⟨.fail, n, by rw [compile], Nat.le_refl n, fun ρ _ => ?_⟩
    simp [evalDt, Outcome]
  | cons row rest =>
    by_cases wild : row.patterns.all isWildcardPattern = true
    · rw [compile, if_pos wild]
      exact compileLeaf_correct below ready wild
    · cases subjects with
      | nil =>
        have none : row.patterns = [] := List.length_eq_zero_iff.mp
          (by simpa using (ready.rowTyped row List.mem_cons_self).length_eq)
        simp [none] at wild
      | cons s ss =>
        obtain ⟨subject, subjects', rows', prepared, ready', known, transfer⟩ :=
          prepare_ready (S := S) ready
        have sameWeight : rowsWeight rows' = rowsWeight (row :: rest) := by
          simpa [prepared] using rowsWeight_prepare (s :: ss) (row :: rest)
        have sameWidth : subjects'.length + 1 = (s :: ss).length := by
          simpa [prepared] using length_prepare (s :: ss) (row :: rest)
        rw [← sameWeight, ← sameWidth] at below
        exact transfer _
          (compile_prepared_correct uniform disjoint wild prepared below ready' known)

/-- `compile` keeps first-match semantics wherever the rows are in order. -/
theorem compile_correct (uniform : ctx.sig.UniformFields) (disjoint : S.Disjoint ctx.sig) (n : Nat)
    (Γ : TVar → Ty) (subjects : List (Subject Ty)) (rows : List Row)
    (ready : Ready ctx.sig P n0 n Γ subjects rows) :
    Correct S P n subjects rows (compile ctx n subjects rows) :=
  compile_step uniform disjoint ready fun n Γ subjects rows _ ready =>
    compile_correct uniform disjoint n Γ subjects rows ready
termination_by (rowsWeight rows, subjects.length)
decreasing_by assumption

end Haxe.Source.Typing.Compile
