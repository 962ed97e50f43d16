import Mathlib.Algebra.GroupWithZero.Nat
import Haxe.Source.Typing.Compile

/-!
# The weight of rows

The weight of a pattern counts its expansions, twice for each constructor and extractor
to be tested. Expanding and permuting keep the weight of the rows; the rows of each
recursive call of `compile` weigh less, or have one column less.
-/

namespace Haxe.Source.Typing.Compile
open Pattern Constructor

mutual

@[grind =] def weight : Pattern → Nat
  | patConstructor _ patterns _ => 2 * weights patterns
  | patVariable _ _ => 1
  | patAny _ => 1
  | patBind _ pat _ => weight pat
  | patOr pat1 pat2 _ => weight pat1 + weight pat2
  | patTuple patterns _ => weights patterns
  | patExtractor _ _ pat _ => 2 * weight pat

@[grind =] def weights : List Pattern → Nat
  | [] => 1
  | pat :: pats => weight pat * weights pats

end

def rowsWeight (rows : List Row) : Nat := (rows.map fun row => weights row.patterns).sum

mutual

theorem weight_pos : ∀ pat : Pattern, 0 < weight pat
  | patConstructor _ patterns _ => by
    have := weights_pos patterns
    simp only [weight]; omega
  | patVariable _ _ | patAny _ => by simp [weight]
  | patBind _ pat _ => by simpa [weight] using weight_pos pat
  | patOr pat1 pat2 _ => by
    have := weight_pos pat1
    simp only [weight]; omega
  | patTuple patterns _ => by simpa [weight] using weights_pos patterns
  | patExtractor _ _ pat _ => by
    have := weight_pos pat
    simp only [weight]; omega

theorem weights_pos : ∀ pats : List Pattern, 0 < weights pats
  | [] => by simp [weights]
  | pat :: pats => by
    simpa only [weights] using Nat.mul_pos (weight_pos pat) (weights_pos pats)

end

@[simp] theorem weights_append (pats pats' : List Pattern) :
    weights (pats ++ pats') = weights pats * weights pats' := by
  induction pats with
  | nil => simp [weights]
  | cons pat pats ih => simp [weights, ih, Nat.mul_assoc]

@[simp] theorem weights_replicate_any (n : Nat) (p : Pos) :
    weights (List.replicate n (patAny p)) = 1 := by
  induction n with
  | zero => rfl
  | succ n ih => simp [List.replicate_succ, weights, weight, ih]

@[simp] theorem rowsWeight_nil : rowsWeight [] = 0 := rfl

@[simp] theorem rowsWeight_cons (row : Row) (rows : List Row) :
    rowsWeight (row :: rows) = weights row.patterns + rowsWeight rows := by simp [rowsWeight]

@[simp] theorem rowsWeight_append (rows rows' : List Row) :
    rowsWeight (rows ++ rows') = rowsWeight rows + rowsWeight rows' := by simp [rowsWeight]

/-- Rows that are filtered and changed row by row weigh no more if no row does. -/
theorem rowsWeight_filterMap_le {f : Row → Option Row} {rows : List Row}
    (le : ∀ row ∈ rows, ∀ row', f row = some row' → weights row'.patterns ≤ weights row.patterns) :
    rowsWeight (rows.filterMap f) ≤ rowsWeight rows := by
  induction rows with
  | nil => simp
  | cons row rows ih =>
    have rest := ih fun row member => le row (.tail _ member)
    cases kept : f row with
    | none => simp only [List.filterMap_cons_none kept, rowsWeight_cons]; omega
    | some row' =>
      have head := le row List.mem_cons_self row' kept
      simp only [List.filterMap_cons_some kept, rowsWeight_cons]; omega

/-- They weigh less if one row is dropped or weighs less. -/
theorem rowsWeight_filterMap_lt {f : Row → Option Row} {rows : List Row}
    (le : ∀ row ∈ rows, ∀ row', f row = some row' → weights row'.patterns ≤ weights row.patterns)
    {row : Row} (member : row ∈ rows)
    (lt : ∀ row', f row = some row' → weights row'.patterns < weights row.patterns) :
    rowsWeight (rows.filterMap f) < rowsWeight rows := by
  obtain ⟨before, after, rfl⟩ := List.append_of_mem member
  have first : rowsWeight (before.filterMap f) ≤ rowsWeight before :=
    rowsWeight_filterMap_le fun row member => le row (by simp [member])
  have second : rowsWeight (after.filterMap f) ≤ rowsWeight after :=
    rowsWeight_filterMap_le fun row member => le row (by simp [member])
  simp only [List.filterMap_append, rowsWeight_append, rowsWeight_cons]
  cases kept : f row with
  | none =>
    have := weights_pos row.patterns
    simp only [List.filterMap_cons_none kept]; omega
  | some row' =>
    have := lt row' kept
    simp only [List.filterMap_cons_some kept, rowsWeight_cons]; omega

/-! ## Expanding and permuting -/

theorem rowsWeight_expandRow (f : Pattern → Pattern) (case : Case)
    (bindings : List (TVar × Texpr)) (patterns : List Pattern)
    (keeps : ∀ pat, weight (f pat) = weight pat) :
    rowsWeight (expandRow f case bindings patterns) = weights patterns := by
  induction f, patterns using expandRow.induct with
  | case1 f pat1 pat2 p patterns ih1 ih2 =>
    simp [expandRow, ih1 keeps, ih2 keeps, weights, weight, Nat.add_mul]
  | case2 f v pat1 p patterns ih =>
    simp [expandRow, ih (by simp [keeps, weight]), weights, weight]
  | case3 f patterns1 p patterns2 ih => simp [expandRow, ih keeps, weights, weight]
  | case4 f pat patterns notOr notBind notTuple =>
    rw [expandRow]
    · simp [weights, keeps]
    all_goals assumption
  | case5 f => simp [expandRow, weights]

theorem rowsWeight_expand (rows : List Row) : rowsWeight (expand rows) = rowsWeight rows := by
  induction rows with
  | nil => rfl
  | cons row rows ih =>
    rw [expand, List.flatMap_cons, rowsWeight_append, rowsWeight_expandRow id _ _ _ fun _ => rfl,
      ← expand, ih, rowsWeight_cons]

theorem sort_perm {α : Type} (i cur : Nat) (acc l : List α) : (sort i cur acc l).Perm (acc ++ l) := by
  induction l generalizing cur acc with
  | nil => simp [sort]
  | cons x l ih =>
    by_cases found : i = cur
    · simpa [sort, found] using List.perm_middle.symm
    · have rest := ih (cur + 1) (x :: acc)
      simp only [sort, if_neg found]
      exact rest.trans List.perm_middle.symm

theorem weights_perm {pats pats' : List Pattern} (perm : pats.Perm pats') :
    weights pats = weights pats' := by
  induction perm with
  | nil => rfl
  | cons pat _ ih => simp [weights, ih]
  | swap pat pat' pats => simp [weights, Nat.mul_left_comm]
  | trans _ _ ih ih' => rw [ih, ih']

theorem rowsWeight_selectColumn {Ty : Type} (subjects : List (Subject Ty)) (rows : List Row) :
    rowsWeight (selectColumn subjects rows).2 = rowsWeight rows := by
  unfold selectColumn
  split
  · rfl
  · split
    · rfl
    · simp only [rowsWeight, List.map_map, Function.comp_def]
      congr 1
      exact List.map_congr_left fun row _ =>
        weights_perm (by simpa using sort_perm _ 0 [] row.patterns)

theorem length_selectColumn {Ty : Type} (subjects : List (Subject Ty)) (rows : List Row) :
    (selectColumn subjects rows).1.length = subjects.length := by
  unfold selectColumn
  split
  · rfl
  · split
    · rfl
    · simpa using (sort_perm _ 0 [] subjects).length_eq

/-! ## Heads -/

@[grind =] def headOf (subject : Texpr) (row : Row) : Head :=
  match row.patterns with
  | [] => .unexpected
  | pat :: _ => head subject row.bindings pat

/-- What `get_column_sigma` makes of a row for `null`. -/
@[grind =] def nullRow (subject : Texpr) (row : Row) : Option Row :=
  match row.patterns with
  | [] => none
  | pat :: patterns =>
    match head subject row.bindings pat with
    | .null bindings => some ⟨row.case, bindings, patterns⟩
    | _ => none

theorem specializeRow_weight {subject : Texpr} {con : Constructor} {case : Case}
    {bindings : List (TVar × Texpr)} {patterns : List Pattern} {row' : Row}
    (kept : specializeRow subject con case bindings patterns = some row') :
    weights row'.patterns ≤ weights patterns ∧
      ∀ con', headOf subject ⟨case, bindings, patterns⟩ = .con con' →
        weights row'.patterns < weights patterns := by
  induction bindings, patterns using specializeRow.induct subject con with
  | case1 bindings con' patterns1 p patterns2 equal =>
    obtain rfl : _ = row' := by simpa [specializeRow, equal] using kept
    have := Nat.mul_pos (weights_pos patterns1) (weights_pos patterns2)
    simp only [weights_append, weights, weight, Nat.mul_assoc]
    exact ⟨by omega, fun _ _ => by omega⟩
  | case2 bindings con' patterns1 p patterns2 equal => simp [specializeRow, equal] at kept
  | case3 bindings v p patterns2 =>
    obtain rfl : _ = row' := by simpa [specializeRow] using kept
    simp [weights, weight, headOf, head]
  | case4 bindings p patterns2 =>
    obtain rfl : _ = row' := by simpa [specializeRow] using kept
    simp [weights, weight, headOf, head]
  | case5 bindings v pat1 p patterns ih =>
    rw [specializeRow] at kept
    simpa [headOf, head, weights, weight] using ih kept
  | case6 bindings patterns notCon notVariable notAny notBind =>
    rw [specializeRow] at kept
    · cases kept
    all_goals assumption

theorem rowsWeight_specialize_lt {subject : Texpr} {con : Constructor} {rows : List Row}
    (found : ∃ row ∈ rows, headOf subject row = .con con) :
    rowsWeight (specialize subject con rows) < rowsWeight rows := by
  obtain ⟨row, member, headed⟩ := found
  exact rowsWeight_filterMap_lt (fun row _ row' kept => (specializeRow_weight kept).1) member
    fun row' kept => (specializeRow_weight kept).2 con headed

theorem defaultRow_weight {subject : Texpr} {case : Case} {bindings : List (TVar × Texpr)}
    {patterns : List Pattern} {row' : Row}
    (kept : defaultRow subject case bindings patterns = some row') :
    weights row'.patterns = weights patterns ∧
      headOf subject ⟨case, bindings, patterns⟩ = .wildcard := by
  induction bindings, patterns using defaultRow.induct subject with
  | case1 bindings v p patterns =>
    obtain rfl : _ = row' := by simpa [defaultRow] using kept
    simp [weights, weight, headOf, head]
  | case2 bindings p patterns =>
    obtain rfl : _ = row' := by simpa [defaultRow] using kept
    simp [weights, weight, headOf, head]
  | case3 bindings v pat1 p patterns ih =>
    rw [defaultRow] at kept
    simpa [headOf, head, weights, weight] using ih kept
  | case4 bindings patterns notVariable notAny notBind =>
    rw [defaultRow] at kept
    · cases kept
    all_goals assumption

theorem rowsWeight_default_le (subject : Texpr) (rows : List Row) :
    rowsWeight (default subject rows) ≤ rowsWeight rows :=
  rowsWeight_filterMap_le fun _ _ _ kept => Nat.le_of_eq (defaultRow_weight kept).1

theorem head_null {subject : Texpr} {bindings bindings' : List (TVar × Texpr)} {pat : Pattern}
    (found : head subject bindings pat = .null bindings') : 1 < weight pat := by
  induction bindings, pat using head.induct subject with
  | case1 bindings patterns p =>
    have := weights_pos patterns
    simp only [weight]; omega
  | case3 bindings v pat1 p ih => simpa [weight] using ih (by simpa [head] using found)
  | _ => simp_all [head]

theorem nullRow_weight {subject : Texpr} {row row' : Row} (kept : nullRow subject row = some row') :
    weights row'.patterns < weights row.patterns ∧
      defaultRow subject row.case row.bindings row.patterns = none := by
  unfold nullRow at kept
  split at kept
  · cases kept
  · rename_i pat patterns cons
    split at kept
    · rename_i bindings found
      obtain rfl := Option.some.inj kept
      have heavy := head_null found
      refine ⟨?_, ?_⟩
      · have := Nat.mul_lt_mul_of_lt_of_le heavy (Nat.le_refl (weights patterns))
          (weights_pos patterns)
        simpa [cons, weights] using this
      · cases defaulted : defaultRow subject row.case row.bindings row.patterns with
        | none => rfl
        | some row' =>
          have := (defaultRow_weight defaulted).2
          simp [headOf, cons, found] at this
    · cases kept

theorem default_cons (subject : Texpr) (row : Row) (rows : List Row) :
    default subject (row :: rows) =
      (match defaultRow subject row.case row.bindings row.patterns with
        | some row' => row' :: default subject rows
        | none => default subject rows) := by
  simp only [default, List.filterMap_cons]
  split <;> simp_all

/-- The rows for `null` and the default rows are different rows. -/
theorem rowsWeight_null_default (subject : Texpr) (rows : List Row) :
    rowsWeight (rows.filterMap (nullRow subject)) + rowsWeight (default subject rows) ≤
        rowsWeight rows ∧
      (rows.filterMap (nullRow subject) ≠ [] →
        rowsWeight (rows.filterMap (nullRow subject)) + rowsWeight (default subject rows) <
          rowsWeight rows) := by
  induction rows with
  | nil => simp [default]
  | cons row rows ih =>
    rw [default_cons]
    cases kept : nullRow subject row with
    | some row' =>
      obtain ⟨lighter, dropped⟩ := nullRow_weight kept
      simp only [List.filterMap_cons_some kept, dropped, rowsWeight_cons]
      exact ⟨by omega, fun _ => by omega⟩
    | none =>
      rw [List.filterMap_cons_none kept]
      cases kept' : defaultRow subject row.case row.bindings row.patterns with
      | none =>
        simp only [rowsWeight_cons]
        exact ⟨by omega, fun some => by have := ih.2 some; omega⟩
      | some row' =>
        have := (defaultRow_weight kept').1
        simp only [rowsWeight_cons]
        exact ⟨by omega, fun some => by have := ih.2 some; omega⟩

/-! ## What `get_column_sigma` returns -/

theorem mem_replace {table : List (Constructor × Bool)} {con : Constructor} {unguarded : Bool}
    {entry : Constructor × Bool} (member : entry ∈ replace table con unguarded) :
    entry.1 = con ∨ ∃ old ∈ table, entry = old := by
  unfold replace at member
  split at member
  · obtain ⟨old, oldMember, rfl⟩ := List.mem_map.mp member
    by_cases equal : old.1.equal con <;> simp [equal, oldMember]
  · rcases List.mem_append.mp member with member | member
    · exact .inr ⟨entry, member, rfl⟩
    · exact .inl (by simp [List.mem_singleton.mp member])

/-- The constructors of the table are heads of rows, and the rows for `null` are those
that `nullRow` makes. -/
theorem getColumnSigma_sound {subject : Texpr} {sigma sigma' : List (Constructor × Bool)}
    {null null' rows : List Row}
    (found : getColumnSigma subject sigma null rows = .ok (sigma', null')) :
    null' = null ++ rows.filterMap (nullRow subject) ∧
      (∀ entry ∈ sigma', entry ∈ sigma ∨ ∃ row ∈ rows, headOf subject row = .con entry.1) ∧
      ∀ row ∈ rows, headOf subject row ≠ .extractor ∧ headOf subject row ≠ .unexpected := by
  induction rows generalizing sigma null with
  | nil =>
    obtain ⟨rfl, rfl⟩ : sigma = sigma' ∧ null = null' := by simpa [getColumnSigma] using found
    simp
  | cons row rows ih =>
    rcases row with ⟨case, bindings, _ | ⟨pat, patterns⟩⟩
    · simp [getColumnSigma] at found
    · cases headed : head subject bindings pat with
      | null bindings' =>
        obtain ⟨nulls, sound, heads⟩ := ih (by simpa [getColumnSigma, headed] using found)
        refine ⟨by simp [nulls, nullRow, headed], fun entry member => ?_, ?_⟩
        · rcases sound entry member with old | ⟨row, member, con⟩
          · exact .inl old
          · exact .inr ⟨row, .tail _ member, con⟩
        · simpa [headOf, headed] using heads
      | con con =>
        obtain ⟨nulls, sound, heads⟩ := ih (by simpa [getColumnSigma, headed] using found)
        refine ⟨by simp [nulls, nullRow, headed], fun entry member => ?_, ?_⟩
        · rcases sound entry member with old | ⟨row, member, con⟩
          · rcases mem_replace old with same | ⟨old, member, rfl⟩
            · exact .inr ⟨_, List.mem_cons_self, by simp [headOf, headed, same]⟩
            · exact .inl member
          · exact .inr ⟨row, .tail _ member, con⟩
        · simpa [headOf, headed] using heads
      | wildcard =>
        obtain ⟨nulls, sound, heads⟩ := ih (by simpa [getColumnSigma, headed] using found)
        refine ⟨by simp [nulls, nullRow, headed], fun entry member => ?_, ?_⟩
        · rcases sound entry member with old | ⟨row, member, con⟩
          · exact .inl old
          · exact .inr ⟨row, .tail _ member, con⟩
        · simpa [headOf, headed] using heads
      | extractor => simp [getColumnSigma, headed] at found
      | unexpected => simp [getColumnSigma, headed] at found

theorem replace_complete {table : List (Constructor × Bool)} {con con' : Constructor}
    {unguarded : Bool}
    (known : con' = con ∨ ∃ entry ∈ table, entry.1.equal con' = true) :
    ∃ entry ∈ replace table con unguarded, entry.1.equal con' = true := by
  unfold replace
  split
  · rename_i found
    obtain ⟨same, sameMember, equal⟩ := List.any_eq_true.mp found
    rcases known with rfl | ⟨entry, member, equal'⟩
    · exact ⟨_, List.mem_map.mpr ⟨same, sameMember, rfl⟩, by simp [equal]⟩
    · refine ⟨_, List.mem_map.mpr ⟨entry, member, rfl⟩, ?_⟩
      split
      · rename_i equal
        exact Constructor.equal_trans (Constructor.equal_symm equal) equal'
      · exact equal'
  · rcases known with rfl | ⟨entry, member, equal⟩
    · exact ⟨(con', unguarded), by simp, by simp⟩
    · exact ⟨entry, List.mem_append_left _ member, equal⟩

/-- Every constructor at the head of a row is in the table, up to `equal`. -/
theorem getColumnSigma_complete {subject : Texpr} {sigma sigma' : List (Constructor × Bool)}
    {null null' rows : List Row}
    (found : getColumnSigma subject sigma null rows = .ok (sigma', null')) {con : Constructor}
    (head : (∃ row ∈ rows, headOf subject row = .con con) ∨
      ∃ entry ∈ sigma, entry.1.equal con = true) :
    ∃ entry ∈ sigma', entry.1.equal con = true := by
  induction rows generalizing sigma null with
  | nil =>
    obtain ⟨rfl, rfl⟩ : sigma = sigma' ∧ null = null' := by simpa [getColumnSigma] using found
    simpa using head
  | cons row rows ih =>
    rcases row with ⟨case, bindings, _ | ⟨pat, patterns⟩⟩
    · simp [getColumnSigma] at found
    · cases headed : Compile.head subject bindings pat with
      | null bindings' =>
        refine ih (by simpa [getColumnSigma, headed] using found) ?_
        simpa [headOf, headed] using head
      | con con' =>
        refine ih (by simpa [getColumnSigma, headed] using found) ?_
        rcases head with ⟨row, member, same⟩ | known
        · rcases List.mem_cons.mp member with rfl | member
          · exact .inr (replace_complete (.inl (by simpa [headOf, headed, eq_comm] using same)))
          · exact .inl ⟨row, member, same⟩
        · exact .inr (replace_complete (.inr known))
      | wildcard =>
        refine ih (by simpa [getColumnSigma, headed] using found) ?_
        simpa [headOf, headed] using head
      | extractor => simp [getColumnSigma, headed] at found
      | unexpected => simp [getColumnSigma, headed] at found

/-- On rows that start with patterns of a column, it succeeds or meets an extractor. -/
theorem getColumnSigma_total {subject : Texpr} {sigma : List (Constructor × Bool)}
    {null rows : List Row} (known : ∀ row ∈ rows, headOf subject row ≠ .unexpected) :
    (∃ found, getColumnSigma subject sigma null rows = .ok found) ∨
      getColumnSigma subject sigma null rows = .error .extractor := by
  induction rows generalizing sigma null with
  | nil => exact .inl ⟨_, rfl⟩
  | cons row rows ih =>
    have here := known row List.mem_cons_self
    have ih := @ih
    rcases row with ⟨case, bindings, _ | ⟨pat, patterns⟩⟩
    · simp [headOf] at here
    · cases headed : head subject bindings pat with
      | extractor => exact .inr (by simp [getColumnSigma, headed])
      | unexpected => exact absurd headed here
      | null | con | wildcard =>
        simpa [getColumnSigma, headed] using ih fun row member => known row (.tail _ member)

theorem getColumnSigma_extractor {subject : Texpr} {sigma : List (Constructor × Bool)}
    {null rows : List Row} (found : getColumnSigma subject sigma null rows = .error .extractor) :
    ∃ row ∈ rows, headOf subject row = .extractor := by
  induction rows generalizing sigma null with
  | nil => simp [getColumnSigma] at found
  | cons row rows ih =>
    rcases row with ⟨case, bindings, _ | ⟨pat, patterns⟩⟩
    · simp [getColumnSigma] at found
    · cases headed : head subject bindings pat with
      | extractor => exact ⟨_, List.mem_cons_self, by simp [headOf, headed]⟩
      | unexpected => simp [getColumnSigma, headed] at found
      | null | con | wildcard =>
        obtain ⟨row, member, extractor⟩ := ih (by simpa [getColumnSigma, headed] using found)
        exact ⟨row, .tail _ member, extractor⟩

/-! ## Extractors -/

theorem weights_makeOffsetList (left right : Nat) (middle : Pattern) :
    weights (makeOffsetList left right middle patAnyNull) = weight middle := by
  simp [makeOffsetList, patAnyNull, weights]

theorem extractorOf_weight {subject : Texpr} {bindings bindings1 : List (TVar × Texpr)}
    {pat pat1 : Pattern} {v : TVar} {e1 : Texpr}
    (found : extractorOf subject bindings pat = some (v, e1, pat1, bindings1)) :
    weight pat = 2 * weight pat1 := by
  induction bindings, pat using extractorOf.induct subject with
  | case1 bindings v e1 pat p =>
    obtain ⟨-, -, rfl, -⟩ : _ ∧ _ ∧ pat = pat1 ∧ _ := by simpa [extractorOf] using found
    rfl
  | case2 bindings v pat1 p ih => simpa [weight] using ih (by simpa [extractorOf] using found)
  | case3 => simp_all [extractorOf]

theorem extractorOf_of_head {subject : Texpr} {bindings bindings' : List (TVar × Texpr)}
    {pat : Pattern} (found : head subject bindings pat = .extractor) :
    (extractorOf subject bindings' pat).isSome := by
  induction bindings, pat using head.induct subject generalizing bindings' with
  | case3 bindings v pat1 p ih => simpa [extractorOf] using ih (by simpa [head] using found)
  | _ => simp_all [head, extractorOf]

variable {Ty : Type} {sig : Signature Ty}

/-- One step of the fold, when all rows have a head. -/
theorem extractRows_cons {subject : Subject Ty} {num fresh left right : Nat}
    {exBindings : List (ExBinding Ty)} {row : Row} {rows : List Row} {result : ExResult Ty}
    (run : extractRows sig subject num fresh left right exBindings (row :: rows) = .ok result) :
    ∃ pat patterns, row.patterns = pat :: patterns ∧
      ((∃ v e1 pat1 bindings1 entry fresh' exBindings' rest,
          extractorOf subject.expr [] pat = some (v, e1, pat1, bindings1) ∧
          extractorEntry fresh left right (Texpr.subst v subject.expr e1)
            (sig.etype (Function.update sig.vtype v subject.etype) e1) exBindings =
              (entry, fresh', exBindings') ∧
          extractRows sig subject num fresh' (left + 1) (right - 1) exBindings' rows = .ok rest ∧
          result = { rest with
            subjects := ⟨.tLocal entry.v, entry.etype⟩ :: rest.subjects
            rows := ⟨row.case, bindings1 ++ row.bindings,
              makeOffsetList (entry.left + 1) (entry.right - 1) pat1 patAnyNull ++ patterns⟩ ::
                rest.rows }) ∨
        ∃ rest, extractorOf subject.expr [] pat = none ∧
          extractRows sig subject num fresh left right exBindings rows = .ok rest ∧
          result = { rest with
            rows := ⟨row.case, row.bindings, makeOffsetList 0 num pat patAnyNull ++ patterns⟩ ::
              rest.rows }) := by
  rcases row with ⟨case, bindings, _ | ⟨pat, patterns⟩⟩
  · simp [extractRows] at run
  · refine ⟨pat, patterns, rfl, ?_⟩
    cases found : extractorOf subject.expr [] pat with
    | none =>
      cases rest : extractRows sig subject num fresh left right exBindings rows with
      | error => simp [extractRows, found, rest, bind, Except.bind] at run
      | ok rest' =>
        refine .inr ⟨rest', rfl, rfl, ?_⟩
        simpa [extractRows, found, rest, bind, Except.bind] using run.symm
    | some extractor =>
      obtain ⟨v, e1, pat1, bindings1⟩ := extractor
      obtain ⟨entry, fresh', exBindings', entered⟩ :
          ∃ entry fresh' exBindings', extractorEntry fresh left right
            (Texpr.subst v subject.expr e1)
            (sig.etype (Function.update sig.vtype v subject.etype) e1) exBindings =
              (entry, fresh', exBindings') := ⟨_, _, _, rfl⟩
      cases rest : extractRows sig subject num fresh' (left + 1) (right - 1) exBindings' rows with
      | error => simp [extractRows, found, entered, rest, bind, Except.bind] at run
      | ok rest' =>
        refine .inl ⟨v, e1, pat1, bindings1, entry, fresh', exBindings', rest', rfl, entered,
          rest, ?_⟩
        simpa [extractRows, found, entered, rest, bind, Except.bind] using run.symm

theorem extractRows_weight {subject : Subject Ty} {num fresh left right : Nat}
    {exBindings : List (ExBinding Ty)} {rows : List Row} {result : ExResult Ty}
    (run : extractRows sig subject num fresh left right exBindings rows = .ok result) :
    rowsWeight result.rows ≤ rowsWeight rows ∧
      ((∃ row ∈ rows, headOf subject.expr row = .extractor) →
        rowsWeight result.rows < rowsWeight rows) := by
  induction rows generalizing fresh left right exBindings result with
  | nil =>
    obtain rfl : _ = result := by simpa [extractRows] using run
    simp
  | cons row rows ih =>
    obtain ⟨pat, patterns, cons, step | step⟩ := extractRows_cons run
    · obtain ⟨v, e1, pat1, bindings1, entry, fresh', exBindings', rest, found, -, later, rfl⟩ := step
      have heavy := extractorOf_weight found
      have positive := Nat.mul_pos (weight_pos pat1) (weights_pos patterns)
      have := (ih later).1
      simp only [rowsWeight_cons, weights_append, weights_makeOffsetList, cons, weights, heavy,
        Nat.mul_assoc]
      exact ⟨by omega, fun _ => by omega⟩
    · obtain ⟨rest, found, later, rfl⟩ := step
      obtain ⟨le, lt⟩ := ih later
      simp only [rowsWeight_cons, weights_append, weights_makeOffsetList, cons, weights]
      refine ⟨by omega, fun ⟨row', member, extractor⟩ => ?_⟩
      rcases List.mem_cons.mp member with rfl | member
      · have some : (extractorOf subject.expr [] pat).isSome :=
          extractorOf_of_head (by simpa [headOf, cons] using extractor)
        simp [found] at some
      · have := lt ⟨row', member, extractor⟩
        omega

end Haxe.Source.Typing.Compile
