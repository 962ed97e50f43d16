import Mathlib.Data.List.Nodup
import Haxe.Source.Typing.SwitchSteps

/-!
# The rows of `compile_extractors`

Each extractor gets a variable for its result and a column for the pattern that the
result has to match. Extractors with equal expressions share both. The new rows have the
matches of the old ones where the variables hold the results.
-/

namespace Haxe.Source.Typing.Compile
open Pattern Semantics Signature

variable {Value Ty : Type} {S : Semantics Value} {P : TVar → Prop} {n n0 : Nat}
variable {ρ : Env Value} {sig : Signature Ty} {Γ : TVar → Ty} {subject : Subject Ty}

/-! ## The entries -/

/-- The entries that are known after some rows: `pre` are the columns of these rows. -/
structure Entries (sig : Signature Ty) (P : TVar → Prop) (Γ : TVar → Ty) (n num fresh : Nat)
    (pre : List (Subject Ty)) (exBindings : List (ExBinding Ty)) : Prop where
  least : n ≤ fresh
  made : ∀ entry ∈ exBindings, n ≤ entry.v ∧ entry.v < fresh
  nodup : (exBindings.map ExBinding.v).Nodup
  distinct : (exBindings.map ExBinding.e1).Nodup
  column : ∀ entry ∈ exBindings, entry.left + entry.right = num ∧
    pre[entry.left]? = some ⟨.tLocal entry.v, entry.etype⟩
  typed : ∀ entry ∈ exBindings, entry.etype = sig.etype Γ entry.e1
  free : ∀ entry ∈ exBindings, ∀ y ∈ entry.e1.vars, y < n ∧ ¬ P y
  named : ∀ s ∈ pre, ∃ entry ∈ exBindings, s = ⟨.tLocal entry.v, entry.etype⟩

theorem getElem?_append_of_some {α : Type} {l l' : List α} {i : Nat} {x : α}
    (found : l[i]? = some x) : (l ++ l')[i]? = some x := by
  rw [List.getElem?_append_left (List.getElem?_eq_some_iff.mp found).1, found]

/-- An extractor shares the entry with its expression, or adds one. -/
theorem extractorEntry_spec {num fresh fresh' right : Nat} {pre : List (Subject Ty)}
    {exBindings exBindings' : List (ExBinding Ty)} {entry : ExBinding Ty} {e1 : Texpr}
    (known : Entries sig P Γ n num fresh pre exBindings) (total : pre.length + right = num)
    (free : ∀ y ∈ e1.vars, y < n ∧ ¬ P y)
    (entered : extractorEntry fresh pre.length right e1 (sig.etype Γ e1) exBindings =
      (entry, fresh', exBindings')) :
    entry ∈ exBindings' ∧ entry.e1 = e1 ∧ exBindings ⊆ exBindings' ∧
      Entries sig P Γ n num fresh' (pre ++ [⟨.tLocal entry.v, entry.etype⟩]) exBindings' := by
  unfold extractorEntry at entered
  cases found : exBindings.find? fun known => known.e1 = e1 with
  | some old =>
    obtain ⟨rfl, rfl, rfl⟩ : old = entry ∧ fresh = fresh' ∧ exBindings = exBindings' := by
      simpa [found] using entered
    have member := List.mem_of_find?_eq_some found
    refine ⟨member, by simpa using List.find?_some found, List.Subset.refl _,
      known.least, known.made, known.nodup, known.distinct, ?_, known.typed, known.free, ?_⟩
    · exact fun entry inside => ⟨(known.column entry inside).1,
        getElem?_append_of_some (known.column entry inside).2⟩
    · intro s inside
      rcases List.mem_append.mp inside with inside | inside
      · exact known.named s inside
      · exact ⟨old, member, List.mem_singleton.mp inside⟩
  | none =>
    obtain ⟨rfl, rfl, rfl⟩ : ⟨fresh, e1, sig.etype Γ e1, pre.length, right⟩ = entry ∧
        fresh + 1 = fresh' ∧
        ⟨fresh, e1, sig.etype Γ e1, pre.length, right⟩ :: exBindings = exBindings' := by
      simpa [found] using entered
    have least := known.least
    refine ⟨List.mem_cons_self, rfl, List.subset_cons_self _ _, by omega, ?_, ?_, ?_, ?_, ?_, ?_, ?_⟩
    · intro entry inside
      rcases List.mem_cons.mp inside with rfl | inside
      · exact ⟨least, Nat.lt_succ_self _⟩
      · exact ⟨(known.made entry inside).1, Nat.lt_succ_of_lt (known.made entry inside).2⟩
    · refine List.nodup_cons.mpr ⟨fun inside => ?_, known.nodup⟩
      obtain ⟨entry, member, same⟩ := List.mem_map.mp inside
      exact absurd (known.made entry member).2 (Nat.not_lt.mpr (Nat.le_of_eq same.symm))
    · refine List.nodup_cons.mpr ⟨fun inside => ?_, known.distinct⟩
      obtain ⟨entry, member, same⟩ := List.mem_map.mp inside
      exact absurd same (by simpa using List.find?_eq_none.mp found entry member)
    · intro entry inside
      rcases List.mem_cons.mp inside with rfl | inside
      · exact ⟨total, by simp⟩
      · exact ⟨(known.column entry inside).1,
          getElem?_append_of_some (known.column entry inside).2⟩
    · intro entry inside
      rcases List.mem_cons.mp inside with rfl | inside
      · rfl
      · exact known.typed entry inside
    · intro entry inside
      rcases List.mem_cons.mp inside with rfl | inside
      · exact free
      · exact known.free entry inside
    · intro s inside
      rcases List.mem_append.mp inside with inside | inside
      · obtain ⟨entry, member, same⟩ := known.named s inside
        exact ⟨entry, .tail _ member, same⟩
      · exact ⟨_, List.mem_cons_self, List.mem_singleton.mp inside⟩

/-! ## Extractors under binds -/

/-- `extractorOf` finds the extractor of a stripped row. -/
theorem extractorOf_strip {subject : Texpr} {bindings bindings1 : List (TVar × Texpr)}
    {pat pat1 : Pattern} {v : TVar} {e1 : Texpr} (rest : List (TVar × Texpr))
    (found : extractorOf subject bindings pat = some (v, e1, pat1, bindings1)) :
    ∃ p, stripBinds subject (bindings ++ rest) pat =
      (bindings1 ++ rest, patExtractor v e1 pat1 p) := by
  induction bindings, pat using extractorOf.induct subject with
  | case1 bindings v' e1' pat' p =>
    obtain ⟨rfl, rfl, rfl, rfl⟩ : v' = v ∧ e1' = e1 ∧ pat' = pat1 ∧ bindings = bindings1 := by
      simpa [extractorOf] using found
    exact ⟨p, rfl⟩
  | case2 bindings v' pat' p ih => exact ih (by simpa [extractorOf] using found)
  | case3 => simp_all [extractorOf]

/-- What `compile_extractors` makes of a row. -/
inductive Extracted (subject : Texpr) (num : Nat) (entries : List (ExBinding Ty)) (row : Row) :
    Row → Prop
  | kept {pat patterns} : row.patterns = pat :: patterns → extractorOf subject [] pat = none →
      Extracted subject num entries row
        ⟨row.case, row.bindings, makeOffsetList 0 num pat patAnyNull ++ patterns⟩
  | opened {pat patterns v e1 pat1 bindings1} {entry : ExBinding Ty} :
      row.patterns = pat :: patterns → extractorOf subject [] pat = some (v, e1, pat1, bindings1) →
      entry ∈ entries → entry.e1 = Texpr.subst v subject e1 →
      Extracted subject num entries row ⟨row.case, bindings1 ++ row.bindings,
        makeOffsetList (entry.left + 1) (entry.right - 1) pat1 patAnyNull ++ patterns⟩

/-- Expressions tell entries apart, so a row becomes one row. -/
theorem Extracted.unique {subject : Texpr} {num : Nat} {entries : List (ExBinding Ty)}
    {row row1 row2 : Row} (distinct : (entries.map ExBinding.e1).Nodup)
    (first : Extracted subject num entries row row1)
    (second : Extracted subject num entries row row2) : row1 = row2 := by
  cases first with
  | kept cons found =>
    cases second with
    | kept cons' found' =>
      obtain ⟨rfl, rfl⟩ := List.cons.inj (cons.symm.trans cons')
      rfl
    | opened cons' found' =>
      obtain ⟨rfl, rfl⟩ := List.cons.inj (cons.symm.trans cons')
      simp [found] at found'
  | opened cons found member same =>
    cases second with
    | kept cons' found' =>
      obtain ⟨rfl, rfl⟩ := List.cons.inj (cons.symm.trans cons')
      simp [found] at found'
    | opened cons' found' member' same' =>
      obtain ⟨rfl, rfl⟩ := List.cons.inj (cons.symm.trans cons')
      obtain ⟨rfl, rfl, rfl, rfl⟩ : _ ∧ _ ∧ _ ∧ _ := by simpa [found] using found'
      rw [List.inj_on_of_nodup_map distinct member member' (same.trans same'.symm)]

/-- A relation that gives each element one other, as a map. -/
theorem exists_map_of_forall₂ {α : Type} {R : α → α → Prop} {l l' : List α}
    (unique : ∀ a b b', R a b → R a b' → b = b') (all : List.Forall₂ R l l') :
    ∃ g : α → α, l' = l.map g ∧ ∀ a ∈ l, R a (g a) := by
  classical
  refine ⟨fun a => if related : ∃ b, R a b then related.choose else a, ?_, ?_⟩
  · induction all with
    | nil => rfl
    | @cons a b _ _ here _ ih =>
      have related : ∃ b, R a b := ⟨b, here⟩
      rw [List.map_cons, ← ih, dif_pos related, unique a b _ here related.choose_spec]
  · induction all with
    | nil => simp
    | @cons a b _ _ here _ ih =>
      intro x member
      rcases List.mem_cons.mp member with rfl | member
      · have related : ∃ b, R x b := ⟨b, here⟩
        simpa only [dif_pos related] using related.choose_spec
      · exact ih x member

/-- A row whose column has the type of the subject. -/
structure ExtractorRow (sig : Signature Ty) (P : TVar → Prop) (n0 n : Nat) (t : Ty) (ts : List Ty)
    (row : Row) : Prop where
  typed : sig.AllTyped (t :: ts) row.patterns
  inScope : RowScoped P n0 n row

variable {ts : List Ty}

/-- An extractor of a row, with its type and scope. -/
theorem ExtractorRow.extractor {row : Row} (ok : ExtractorRow sig P n0 n subject.etype ts row)
    (free : ∀ y ∈ subject.expr.vars, y < n ∧ ¬ P y) {pat : Pattern} {patterns : List Pattern}
    (cons : row.patterns = pat :: patterns) {v : TVar} {e1 : Texpr} {pat1 : Pattern}
    {bindings1 : List (TVar × Texpr)}
    (found : extractorOf subject.expr [] pat = some (v, e1, pat1, bindings1)) :
    ∃ p, stripRow subject.expr row =
        ⟨row.case, bindings1 ++ row.bindings, patExtractor v e1 pat1 p :: patterns⟩ ∧
      sig.WellTyped (.one (sig.etype (Function.update sig.vtype v subject.etype) e1)) pat1 ∧
      (∀ y ∈ e1.vars, y ≠ v → y < n0 ∧ ¬ P y) := by
  obtain ⟨p, stripped⟩ := extractorOf_strip row.bindings found
  rw [List.nil_append] at stripped
  have same : stripRow subject.expr row =
      ⟨row.case, bindings1 ++ row.bindings, patExtractor v e1 pat1 p :: patterns⟩ := by
    simp [stripRow, cons, stripped]
  obtain ⟨typed, inScope⟩ := stripRow_keep subject.expr ok.typed ok.inScope free
  rw [same] at typed inScope
  have headTyped := (allTyped_cons.mp typed).1
  obtain ⟨t, isT, pat1Typed⟩ : ∃ t, Column.one subject.etype = Column.one t ∧
      sig.WellTyped (.one (sig.etype (Function.update sig.vtype v t) e1)) pat1 := by
    simpa [WellTyped] using headTyped
  obtain rfl := Column.one.inj isT
  have scope := headScope inScope
  simp only [Scoped] at scope
  exact ⟨p, same, pat1Typed, scope.1⟩

/-- The type of an extractor, computed from the types of variables here. -/
theorem etype_extractor (below : ∀ y < n0, ¬ P y → Γ y = sig.vtype y)
    (subjectTyped : sig.etype Γ subject.expr = subject.etype) {v : TVar} {e1 : Texpr}
    (outer : ∀ y ∈ e1.vars, y ≠ v → y < n0 ∧ ¬ P y) :
    sig.etype Γ (Texpr.subst v subject.expr e1) =
      sig.etype (Function.update sig.vtype v subject.etype) e1 := by
  rw [sig.etype_subst, subjectTyped]
  refine sig.etype_congr _ _ _ fun y inside => ?_
  by_cases same : y = v
  · simp [same]
  · simp [same, below y (outer y inside same).1 (outer y inside same).2]

theorem numExtractors_cons (subject : Texpr) (row : Row) (rows : List Row) {pat : Pattern}
    {patterns : List Pattern} (cons : row.patterns = pat :: patterns) :
    numExtractors subject (row :: rows) =
      numExtractors subject rows + if (extractorOf subject [] pat).isSome then 1 else 0 := by
  simp [numExtractors, List.countP_cons, cons]

/-- The fold succeeds on typed rows. -/
theorem extractRows_spec (le : n0 ≤ n) (below : ∀ y < n0, ¬ P y → Γ y = sig.vtype y)
    (subjectTyped : sig.etype Γ subject.expr = subject.etype)
    (free : ∀ y ∈ subject.expr.vars, y < n ∧ ¬ P y) {num fresh right : Nat}
    {pre : List (Subject Ty)} {exBindings : List (ExBinding Ty)} {rows : List Row}
    (known : Entries sig P Γ n num fresh pre exBindings) (total : pre.length + right = num)
    (count : right = numExtractors subject.expr rows)
    (ok : ∀ row ∈ rows, ExtractorRow sig P n0 n subject.etype ts row) :
    ∃ result, extractRows sig subject num fresh pre.length right exBindings rows = .ok result ∧
      exBindings ⊆ result.bindings ∧ result.subjects.length = right ∧
      Entries sig P Γ n num result.fresh (pre ++ result.subjects) result.bindings ∧
      List.Forall₂ (Extracted subject.expr num result.bindings) rows result.rows := by
  induction rows generalizing pre right fresh exBindings with
  | nil =>
    refine ⟨_, rfl, List.Subset.refl _, ?_, by simpa using known, .nil⟩
    simp [count, numExtractors]
  | cons row rows ih =>
    have okRow := ok row List.mem_cons_self
    have okRows := fun row member => ok row (.tail _ member)
    obtain ⟨pat, patterns, cons⟩ : ∃ pat patterns, row.patterns = pat :: patterns :=
      List.exists_cons_of_length_eq_add_one okRow.typed.length_eq
    rw [numExtractors_cons _ _ _ cons] at count
    cases found : extractorOf subject.expr [] pat with
    | none =>
      obtain ⟨rest, run, subset, len, entries, all⟩ :=
        ih known total (by simpa [found] using count) okRows
      exact ⟨{ rest with rows := _ :: rest.rows },
        by simp [extractRows, cons, found, run, bind, Except.bind], subset, len, entries,
        .cons (.kept cons found) all⟩
    | some extractor =>
      obtain ⟨v, e1, pat1, bindings1⟩ := extractor
      obtain ⟨p, -, -, outer⟩ := okRow.extractor free cons found
      have sameType := etype_extractor below subjectTyped outer
      obtain ⟨entry, fresh', exBindings', entered⟩ :
          ∃ entry fresh' exBindings', extractorEntry fresh pre.length right
            (Texpr.subst v subject.expr e1)
            (sig.etype Γ (Texpr.subst v subject.expr e1)) exBindings =
              (entry, fresh', exBindings') := ⟨_, _, _, rfl⟩
      have exprFree : ∀ y ∈ (Texpr.subst v subject.expr e1).vars, y < n ∧ ¬ P y := by
        intro y inside
        rcases Texpr.mem_vars_subst inside with inside | ⟨inside, ne⟩
        · exact free y inside
        · exact ⟨Nat.lt_of_lt_of_le (outer y inside ne).1 le, (outer y inside ne).2⟩
      obtain ⟨member, sameExpr, subset, known'⟩ := extractorEntry_spec known total exprFree entered
      rw [sameType] at entered
      have positive : right = numExtractors subject.expr rows + 1 := by simpa [found] using count
      obtain ⟨rest, run, subset', len, entries, all⟩ := @ih _ (right - 1) _ _ known'
        (by simp only [List.length_append, List.length_singleton]; omega) (by omega) okRows
      rw [List.length_append, List.length_singleton] at run
      exact ⟨{ rest with
          subjects := ⟨.tLocal entry.v, entry.etype⟩ :: rest.subjects
          rows := _ :: rest.rows },
        by simp [extractRows, cons, found, entered, run, bind, Except.bind],
        List.Subset.trans subset subset', by simp [len, positive], by simpa using entries,
        .cons (.opened cons found (subset' member) sameExpr) all⟩

/-! ## The new rows -/

section Columns

variable {entries : List (ExBinding Ty)} {cols : List (Subject Ty)} {num fresh : Nat}
variable {row row' : Row}

theorem exists_append_of_getElem? {α : Type} {l : List α} {i : Nat} {x : α}
    (found : l[i]? = some x) :
    ∃ before after, l = before ++ x :: after ∧ before.length = i ∧
      after.length = l.length - i - 1 := by
  obtain ⟨bound, rfl⟩ := List.getElem?_eq_some_iff.mp found
  refine ⟨l.take i, l.drop (i + 1), ?_, by simp; omega, by simp; omega⟩
  rw [← List.drop_eq_getElem_cons bound, List.take_append_drop]

theorem refines_of_eq {row1 row : Row} {vs1 vs : List Value} (case : row1.case = row.case)
    (same : S.rowMatches ρ row1 vs1 = S.rowMatches ρ row vs) : Refines S ρ [row1] vs1 row vs where
  case row' member := by rw [List.mem_singleton.mp member, case]
  sound row' member β' matched := by
    obtain rfl := List.mem_singleton.mp member
    exact ⟨β', same ▸ matched, .refl _⟩
  complete β matched := ⟨row1, List.mem_cons_self, β, same ▸ matched, .refl _⟩

/-- A column of a shared entry, in the middle of the columns. -/
theorem Entries.split (known : Entries sig P Γ n num fresh cols entries)
    (len : cols.length = num) {entry : ExBinding Ty} (member : entry ∈ entries) :
    ∃ before after, cols = before ++ ⟨.tLocal entry.v, entry.etype⟩ :: after ∧
      before.length = entry.left ∧ after.length = entry.right - 1 := by
  obtain ⟨total, found⟩ := known.column entry member
  obtain ⟨before, after, split, beforeLen, afterLen⟩ := exists_append_of_getElem? found
  exact ⟨before, after, split, beforeLen, by omega⟩

theorem makeOffsetList_succ {α : Type} (left right : Nat) (middle other : α) :
    makeOffsetList (left + 1) right middle other = other :: makeOffsetList left right middle other :=
  rfl

theorem matchPats_makeOffsetList {pat : Pattern} {before after : List Value} {v : Value}
    {left right : Nat} (beforeLen : before.length = left) (afterLen : after.length = right) :
    S.matchPats ρ (makeOffsetList left right pat patAnyNull) (before ++ v :: after) =
      S.matchPat ρ pat [v] := by
  rw [makeOffsetList, List.append_assoc, List.singleton_append,
    matchPats_append (by simp [beforeLen])]
  rw [patAnyNull, matchPats_replicate_any beforeLen, product_one_left, matchPats,
    matchPats_replicate_any afterLen, product_one_right]

theorem length_makeOffsetList {α : Type} (left right : Nat) (middle other : α) :
    (makeOffsetList left right middle other).length = left + right + 1 := by
  simp [makeOffsetList]
  omega

/-- Where the variables hold the results, the new row has the matches of the old one. -/
theorem Extracted.refines (known : Entries sig P Γ n num fresh cols entries)
    (len : cols.length = num) (ok : ExtractorRow sig P n0 n subject.etype ts row)
    (free : ∀ y ∈ subject.expr.vars, y < n ∧ ¬ P y)
    (extracted : Extracted subject.expr num entries row row')
    (results : ∀ entry ∈ entries, ρ entry.v = S.eval ρ entry.e1) (vs : List Value) :
    Refines S ρ [row'] (S.eval ρ subject.expr :: (cols.map fun s => S.eval ρ s.expr) ++ vs) row
      (S.eval ρ subject.expr :: vs) := by
  cases extracted with
  | @kept pat patterns cons found =>
    refine refines_of_eq rfl ?_
    have front : S.matchPats ρ (makeOffsetList 0 num pat patAnyNull)
        ([] ++ S.eval ρ subject.expr :: cols.map fun s => S.eval ρ s.expr) =
          S.matchPat ρ pat [S.eval ρ subject.expr] :=
      matchPats_makeOffsetList rfl (by simpa using len)
    rw [List.nil_append] at front
    rw [rowMatches, rowMatches, matchPats_append (by simp [length_makeOffsetList, len]), front, cons,
      matchPats]
  | @opened pat patterns v e1 pat1 bindings1 entry cons found member sameExpr =>
    obtain ⟨p, same, -, -⟩ := ok.extractor free cons found
    have stripped := stripRow_refines (S := S) (ρ := ρ) subject.expr row vs
    rw [same] at stripped
    refine refines_trans stripped (refines_of_eq rfl ?_)
    obtain ⟨before, after, split, beforeLen, afterLen⟩ := known.split len member
    have value : ρ entry.v = S.eval (Function.update ρ v (S.eval ρ subject.expr)) e1 := by
      rw [results entry member, sameExpr, eval_subst]
    have column : S.matchPats ρ (makeOffsetList entry.left (entry.right - 1) pat1 patAnyNull)
        ((before.map fun s => S.eval ρ s.expr) ++ ρ entry.v ::
          after.map fun s => S.eval ρ s.expr) = S.matchPat ρ pat1 [ρ entry.v] :=
      matchPats_makeOffsetList (by simpa using beforeLen) (by simpa using afterLen)
    have cells : (cols.map fun s => S.eval ρ s.expr) = (before.map fun s => S.eval ρ s.expr) ++
        ρ entry.v :: after.map fun s => S.eval ρ s.expr := by
      simp [split, eval]
    have lengths : (makeOffsetList entry.left (entry.right - 1) pat1 patAnyNull).length =
        (cols.map fun s => S.eval ρ s.expr).length := by
      simp [length_makeOffsetList, split, beforeLen, afterLen]
      omega
    have anyMatched : S.matchPat ρ patAnyNull [S.eval ρ subject.expr] = [[]] := by
      simp [patAnyNull, matchPat]
    rw [rowMatches, rowMatches, makeOffsetList_succ, List.cons_append, List.cons_append, matchPats,
      anyMatched, product_one_left, matchPats_append lengths, cells, column, value, matchPats]
    rfl

/-- The new row is typed for the new columns, and in scope. -/
theorem Extracted.keep (known : Entries sig P Γ n num fresh cols entries) (len : cols.length = num)
    (below : ∀ y < n0, ¬ P y → Γ y = sig.vtype y)
    (subjectTyped : sig.etype Γ subject.expr = subject.etype)
    (ok : ExtractorRow sig P n0 n subject.etype ts row)
    (free : ∀ y ∈ subject.expr.vars, y < n ∧ ¬ P y)
    (extracted : Extracted subject.expr num entries row row') :
    sig.AllTyped (subject.etype :: cols.map Subject.etype ++ ts) row'.patterns ∧
      RowScoped P n0 n row' := by
  have wild : ∀ k, patsVars (List.replicate k patAnyNull) = [] :=
    fun k => patsVars_replicate_any k _
  have scopedWild : ∀ k, AllScoped P n0 (List.replicate k patAnyNull) :=
    fun k => allScoped_replicate_any k _
  cases extracted with
  | @kept pat patterns cons found =>
    obtain ⟨headTyped, restTyped⟩ := allTyped_cons.mp (cons ▸ ok.typed)
    have scopes := cons ▸ ok.inScope.patterns
    simp only [AllScoped] at scopes
    have row'Cons : makeOffsetList 0 num pat patAnyNull ++ patterns =
        pat :: (List.replicate num patAnyNull ++ patterns) := by simp [makeOffsetList]
    refine ⟨?_, rowScoped_of_perm ok.inScope rfl ok.inScope.bindings ?_ ?_⟩
    · rw [row'Cons]
      exact allTyped_cons.mpr ⟨headTyped,
        allTyped_append (allTyped_replicate_any _ (by simpa using len)) restTyped⟩
    · rw [row'Cons]
      exact ⟨scopes.1, allScoped_append.mpr ⟨scopedWild _, scopes.2⟩⟩
    · simp [rowVars, row'Cons, cons, patsVars, wild]
  | @opened pat patterns v e1 pat1 bindings1 entry cons found member sameExpr =>
    obtain ⟨p, same, pat1Typed, outer⟩ := ok.extractor free cons found
    obtain ⟨typed, inScope⟩ := stripRow_keep subject.expr ok.typed ok.inScope free
    rw [same] at typed inScope
    obtain ⟨before, after, split, beforeLen, afterLen⟩ := known.split len member
    have restTyped := (allTyped_cons.mp typed).2
    have scopes := inScope.patterns
    simp only [AllScoped, Scoped] at scopes
    have entryType : entry.etype =
        sig.etype (Function.update sig.vtype v subject.etype) e1 := by
      rw [known.typed entry member, sameExpr, etype_extractor below subjectTyped outer]
    have row'Cons : makeOffsetList (entry.left + 1) (entry.right - 1) pat1 patAnyNull ++ patterns =
        patAnyNull :: ((List.replicate entry.left patAnyNull ++
          pat1 :: List.replicate (entry.right - 1) patAnyNull) ++ patterns) := by
      simp [makeOffsetList, List.replicate_succ]
    refine ⟨?_, rowScoped_of_perm inScope rfl inScope.bindings ?_ ?_⟩
    · rw [row'Cons, split, List.map_append, List.map_cons]
      refine allTyped_cons.mpr ⟨wellTyped_any, allTyped_append (allTyped_append
        (allTyped_replicate_any _ (by simpa using beforeLen)) (allTyped_cons.mpr ⟨?_,
          allTyped_replicate_any _ (by simpa using afterLen)⟩)) restTyped⟩
      rw [entryType]
      exact pat1Typed
    · rw [row'Cons]
      exact ⟨trivial, allScoped_append.mpr ⟨allScoped_append.mpr ⟨scopedWild _, scopes.1.2,
        scopedWild _⟩, scopes.2⟩⟩
    · have anyVars : patVars patAnyNull = [] := by simp [patAnyNull, patVars]
      have vars : patsVars (makeOffsetList (entry.left + 1) (entry.right - 1) pat1 patAnyNull ++
          patterns) = patVars pat1 ++ patsVars patterns := by
        rw [row'Cons]
        simp [patsVars, anyVars, wild]
      simp only [rowVars, vars, patsVars, patVars]
      exact .refl _

theorem overtakenBy_extractor_right {v : TVar} {e1 : Texpr} {pat' : Pattern} {p : Pos} :
    ∀ pat, overtakenBy pat (patExtractor v e1 pat' p) = hasNull pat'
  | patVariable _ _ | patAny _ | patExtractor _ _ _ _ => by simp [overtakenBy, hasNull]
  | patBind _ pat _ => by simpa [overtakenBy] using overtakenBy_extractor_right pat
  | patOr pat1 pat2 _ => by
    simp [overtakenBy, overtakenBy_extractor_right pat1, overtakenBy_extractor_right pat2]
  | patConstructor _ _ _ | patTuple _ _ => by simp [overtakenBy]

theorem hasNulls_makeOffsetList (left right : Nat) (pat : Pattern) :
    hasNulls (makeOffsetList left right pat patAnyNull) = hasNull pat := by
  have wild : ∀ k pats, hasNulls (List.replicate k patAnyNull ++ pats) = hasNulls pats := by
    intro k pats
    induction k with
    | zero => rfl
    | succ k ih => simpa [List.replicate_succ, hasNulls, hasNull, patAnyNull] using ih
  have rest := wild right []
  rw [List.append_nil] at rest
  rw [makeOffsetList, List.append_assoc, wild, List.singleton_append, hasNulls, rest, hasNulls,
    Bool.or_false]

theorem hasNull_stripBinds (subject : Texpr) (bindings : List (TVar × Texpr)) (pat : Pattern) :
    hasNull (stripBinds subject bindings pat).2 = hasNull pat := by
  induction bindings, pat using stripBinds.induct subject with
  | case1 bindings x pat1 p ih => simpa [stripBinds, hasNull] using ih
  | case2 bindings pat notBind => cases pat <;> simp_all [stripBinds]

/-- The columns of a new row, next to the head they come from. -/
theorem Extracted.shape (ok : ExtractorRow sig P n0 n subject.etype ts row)
    (free : ∀ y ∈ subject.expr.vars, y < n ∧ ¬ P y)
    (known : Entries sig P Γ n num fresh cols entries) (len : cols.length = num)
    (extracted : Extracted subject.expr num entries row row') :
    ∃ front patterns head, row'.patterns = front ++ patterns ∧ front.length = num + 1 ∧
      (stripRow subject.expr row).patterns = head :: patterns ∧ hasNulls front = hasNull head ∧
      ((∃ v e1 pat1 p, head = patExtractor v e1 pat1 p) ∨
        ∃ pat bindings, front = makeOffsetList 0 num pat patAnyNull ∧
          head = (stripBinds subject.expr bindings pat).2) := by
  cases extracted with
  | @kept pat patterns cons found =>
    refine ⟨_, patterns, (stripBinds subject.expr row.bindings pat).2, rfl,
      by simp [length_makeOffsetList], ?_, ?_, .inr ⟨pat, row.bindings, rfl, rfl⟩⟩
    · simp [stripRow, cons]
    · rw [hasNulls_makeOffsetList, hasNull_stripBinds]
  | @opened pat patterns v e1 pat1 bindings1 entry cons found member sameExpr =>
    obtain ⟨p, same, -, -⟩ := ok.extractor free cons found
    obtain ⟨before, after, split, beforeLen, afterLen⟩ := known.split len member
    refine ⟨_, patterns, _, rfl, ?_, by rw [same], ?_, .inl ⟨v, e1, pat1, p, rfl⟩⟩
    · simp only [split, List.length_append, List.length_cons] at len
      rw [length_makeOffsetList]
      omega
    · rw [hasNulls_makeOffsetList, hasNull]

/-- The new columns test for `null` only where an extractor does. -/
theorem Extracted.overtaken {first first' : Row}
    (okFirst : ExtractorRow sig P n0 n subject.etype ts first)
    (ok : ExtractorRow sig P n0 n subject.etype ts row)
    (free : ∀ y ∈ subject.expr.vars, y < n ∧ ¬ P y)
    (known : Entries sig P Γ n num fresh cols entries) (len : cols.length = num)
    (extractedFirst : Extracted subject.expr num entries first first')
    (extracted : Extracted subject.expr num entries row row')
    (overtaken : overtakenByAll first'.patterns row'.patterns = true) :
    overtakenByAll first.patterns row.patterns = true := by
  obtain ⟨front1, patterns1, head1, shape1, len1, strip1, -, kind1⟩ :=
    extractedFirst.shape okFirst free known len
  obtain ⟨front, patterns, head, shape, len', strip, nulls, kind⟩ :=
    extracted.shape ok free known len
  rw [shape1, shape, overtakenByAll_append (len1.trans len'.symm), Bool.or_eq_true] at overtaken
  refine stripRow_overtaken subject.expr ?_
  rw [strip1, strip, overtakenByAll, Bool.or_eq_true]
  refine overtaken.imp_left fun overtaken => ?_
  have tested : hasNull head = true := nulls ▸ hasNull_of_overtakenBy.2 _ _ overtaken
  rcases kind1 with ⟨v1, e1, pat1, p1, rfl⟩ | ⟨pat1, bindings1, rfl, rfl⟩
  · rw [overtakenBy, tested]
  rcases kind with ⟨v, e, pat, p, rfl⟩ | ⟨pat, bindings, rfl, rfl⟩
  · rw [hasNull] at tested
    rw [overtakenBy_extractor_right, tested]
  · rw [overtakenBy_stripBinds]
    have wild := hasNulls_makeOffsetList 0 num patAnyNull
    simp only [makeOffsetList, List.replicate_zero, List.nil_append, List.singleton_append,
      overtakenByAll, Bool.or_eq_true, hasNulls] at overtaken wild
    refine overtaken.resolve_right fun others => ?_
    have := hasNull_of_overtakenBy.2 _ _ others
    simp_all [patAnyNull, hasNull]

end Columns

end Haxe.Source.Typing.Compile
