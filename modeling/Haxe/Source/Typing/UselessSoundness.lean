import Haxe.Source.Typing.Useless

/-!
# `u'` is sound

A row of the matrix is kept in three parts, for the columns still to be looked at, for
wildcard columns and for or-pattern columns. `Sound` says what an answer of `u'` about
a row promises; one lemma for each step carries it from the row `u'` goes on with to
the row it was given.
-/

namespace Haxe.Source.Typing.UselessPatterns
open Pattern Semantics Signature

variable {Value Ty : Type} {S : Semantics Value} {ρ : Env Value} {sig : Signature Ty}

abbrev SplitRow := List Pattern × List Pattern × List Pattern

def TypedRows (sig : Signature Ty) (cp cq cr : List (Column Ty)) (rows : List SplitRow) : Prop :=
  ∀ row ∈ rows, sig.RowTyped cp row.1 ∧ sig.RowTyped cq row.2.1 ∧ sig.RowTyped cr row.2.2

def Covered (S : Semantics Value) (ρ : Env Value) (rows : List SplitRow)
    (sp sq sr : List (List Value)) : Prop :=
  ∃ row ∈ rows, S.Matches ρ row.1 sp ∧ S.Matches ρ row.2.1 sq ∧ S.Matches ρ row.2.2 sr

/-- What an answer promises about the row `p`, `q`, `r`. -/
def Sound (S : Semantics Value) (ρ : Env Value) (rows : List SplitRow) (p q r : List Pattern) :
    Useless → Prop
  | .true => True
  | .false => ∀ sp sq sr, S.Matches ρ p sp → S.Matches ρ q sq → S.Matches ρ r sr →
      Covered S ρ rows sp sq sr
  | .pos pos =>
    (∃ p' earlier, NarrowRow p pos p' earlier ∧
      ∀ sp sq sr, S.Matches ρ p' sp → S.Matches ρ q sq → S.Matches ρ r sr →
        Covered S ρ rows sp sq sr ∨ ∃ before ∈ earlier, S.Matches ρ before sp) ∨
    (∃ r' earlier, NarrowRow r pos r' earlier ∧
      ∀ sp sq sr, S.Matches ρ p sp → S.Matches ρ q sq → S.Matches ρ r' sr →
        Covered S ρ rows sp sq sr ∨ ∃ before ∈ earlier, S.Matches ρ before sr)

/-! ## The matrices as lists of split rows -/

theorem transferColumn_eq {α : Type} (rows : List α) (source target : α → List Pattern)
    (nonempty : ∀ row ∈ rows, source row ≠ []) :
    transferColumn (rows.map source) (rows.map target) =
      some (rows.map fun row => (source row).tail,
        rows.map fun row => (source row).take 1 ++ target row) := by
  induction rows with
  | nil => rfl
  | cons row rows ih =>
    obtain ⟨pat, pats, cons⟩ := List.exists_cons_of_ne_nil (nonempty row List.mem_cons_self)
    simp [transferColumn, cons, ih fun row member => nonempty row (.tail _ member)]

def specializeRows (isTuple : Bool) (con : Constructor) (rows : List SplitRow) : List SplitRow :=
  rows.flatMap fun row => match row.1 with
    | pat :: rest => (specializeHead' isTuple con pat).map fun head => (head ++ rest, row.2)
    | [] => []

theorem specializeRows_cons (isTuple : Bool) (con : Constructor) (row : SplitRow)
    (rows : List SplitRow) :
    specializeRows isTuple con (row :: rows) =
      (match row.1 with
        | pat :: rest => (specializeHead' isTuple con pat).map fun head => (head ++ rest, row.2)
        | [] => []) ++ specializeRows isTuple con rows :=
  List.flatMap_cons

theorem specialize'_eq (isTuple : Bool) (con : Constructor) (rows : List SplitRow) :
    specialize' isTuple con (rows.map fun row => row.1) (rows.map fun row => row.2.1)
        (rows.map fun row => row.2.2) =
      some ((specializeRows isTuple con rows).map fun row => row.1,
        (specializeRows isTuple con rows).map fun row => row.2.1,
        (specializeRows isTuple con rows).map fun row => row.2.2) := by
  induction rows with
  | nil => rfl
  | cons row rows ih =>
    rcases row with ⟨_ | ⟨pat, rest⟩, q, r⟩ <;>
      simp [specialize', specializeRows_cons, ih, Function.comp_def]

theorem processRows_eq (i : Nat) (rows : List SplitRow) (x : SplitRow → Pattern)
    (column : ∀ row ∈ rows, row.2.2[i]? = some (x row)) :
    processRows i (rows.map fun row => row.2.2) (rows.map fun row => row.2.1) =
      some (rows.map fun row => [x row],
        rows.map fun row => row.2.2.eraseIdx i ++ row.2.1) := by
  induction rows with
  | nil => rfl
  | cons row rows ih =>
    simp [processRows, processRow, column row List.mem_cons_self,
      ih fun row member => column row (.tail _ member)]

/-! ## One step of `u'` -/

/-- A split row and the vector it matches, after its head is specialized. -/
theorem specializeRows_sound (uniform : sig.UniformFields) {isTuple : Bool} {con : Constructor}
    {column : Column Ty} {ts : List Ty} {cp cq cr : List (Column Ty)}
    (splits : Splits sig isTuple con column ts) {rows : List SplitRow}
    (typed : TypedRows sig (column :: cp) cq cr rows) :
    TypedRows sig (ts.map .one ++ cp) cq cr (specializeRows isTuple con rows) ∧
      ∀ seg subs tail sq sr, Opens S isTuple con seg subs → subs.length = ts.length →
        Covered S ρ (specializeRows isTuple con rows) (singles subs ++ tail) sq sr →
        Covered S ρ rows (seg :: tail) sq sr := by
  have origin : ∀ row' ∈ specializeRows isTuple con rows, ∃ pat rest head qr,
      (pat :: rest, qr) ∈ rows ∧ head ∈ specializeHead' isTuple con pat ∧
        row' = (head ++ rest, qr) := by
    intro row' member
    obtain ⟨⟨p, qr⟩, source, member⟩ := List.mem_flatMap.mp member
    cases p with
    | nil => simp at member
    | cons pat rest =>
      obtain ⟨head, headMember, rfl⟩ := List.mem_map.mp member
      exact ⟨pat, rest, head, qr, source, headMember, rfl⟩
  constructor
  · intro row' member
    obtain ⟨pat, rest, head, qr, source, headMember, rfl⟩ := origin row' member
    obtain ⟨rowTyped, others⟩ := typed _ source
    exact ⟨(specialized_row_sound (S := S) (ρ := ρ) uniform splits rowTyped headMember).1, others⟩
  · rintro seg subs tail sq sr opened len ⟨row', member, matched, others⟩
    obtain ⟨pat, rest, head, qr, source, headMember, rfl⟩ := origin row' member
    have back := (specialized_row_sound (S := S) (ρ := ρ) uniform splits (typed _ source).1
      headMember).2
    exact ⟨_, source, back seg subs tail opened len matched, others⟩

/-- The step of `u'` on a constructor or a tuple, written `wrap patterns`. -/
theorem sound_components (uniform : sig.UniformFields) {isTuple : Bool} {con : Constructor}
    {column : Column Ty} {ts : List Ty} {cp cq cr : List (Column Ty)}
    (splits : Splits sig isTuple con column ts) (wrap : List Pattern → Pattern)
    (opens : ∀ patterns seg, S.matchPat ρ (wrap patterns) seg ≠ [] ↔
      ∃ subs, Opens S isTuple con seg subs ∧ S.Matches ρ patterns (singles subs))
    (narrows : ∀ {patterns pos patterns' earlier}, NarrowRow patterns pos patterns' earlier →
      Narrow (wrap patterns) pos (wrap patterns') (earlier.map wrap))
    {rows : List SplitRow} (typed : TypedRows sig (column :: cp) cq cr rows)
    {patterns pl q r : List Pattern} (len : patterns.length = ts.length) {answer : Useless}
    (sound : Sound S ρ (specializeRows isTuple con rows) (patterns ++ pl) q r answer) :
    Sound S ρ rows (wrap patterns :: pl) q r answer := by
  have covers := (specializeRows_sound (S := S) (ρ := ρ) uniform splits typed).2
  have parts : ∀ {patterns' pl' segs}, patterns'.length = ts.length →
      S.Matches ρ (wrap patterns' :: pl') segs → ∃ seg subs tail, segs = seg :: tail ∧
        Opens S isTuple con seg subs ∧ subs.length = ts.length ∧
        S.Matches ρ (patterns' ++ pl') (singles subs ++ tail) := by
    intro patterns' pl' segs len matched
    obtain ⟨seg, tail, rfl, head, tailMatched⟩ := matches_cons.mp matched
    obtain ⟨subs, opened, components⟩ := (opens patterns' seg).mp head
    refine ⟨seg, subs, tail, rfl, opened, ?_,
      (matches_append components.length_eq).mpr ⟨components, tailMatched⟩⟩
    rw [← len, ← components.length_eq, List.length_map]
  cases answer with
  | true => trivial
  | false =>
    intro sp sq sr matched matchedQ matchedR
    obtain ⟨seg, subs, tail, rfl, opened, subsLen, whole⟩ := parts len matched
    exact covers seg subs tail sq sr opened subsLen (sound _ sq sr whole matchedQ matchedR)
  | pos pos =>
    rcases sound with ⟨p', earlier, narrow, reach⟩ | ⟨r', earlier, narrow, reach⟩
    · rcases narrow.of_append with ⟨patterns', before, inner, rfl, rfl⟩ |
        ⟨pl', before, inner, rfl, rfl⟩
      · obtain ⟨same, beforeLen⟩ := inner.length_eq
        refine .inl ⟨_, _, .head pl (narrows inner), ?_⟩
        intro sp sq sr matched matchedQ matchedR
        obtain ⟨seg, subs, tail, rfl, opened, subsLen, whole⟩ := parts (same.trans len) matched
        rcases reach _ sq sr whole matchedQ matchedR with covered | ⟨_, member, earlierMatched⟩
        · exact .inl (covers seg subs tail sq sr opened subsLen covered)
        · obtain ⟨alternative, alternativeMember, rfl⟩ := List.mem_map.mp member
          obtain ⟨first, second⟩ := (matches_append (by
            simp [subsLen, beforeLen _ alternativeMember, len])).mp earlierMatched
          refine .inr ⟨wrap alternative :: pl, ?_, matches_cons_cons.mpr
            ⟨(opens alternative seg).mpr ⟨subs, opened, first⟩, second⟩⟩
          exact List.mem_map_of_mem (List.mem_map_of_mem alternativeMember)
      · refine .inl ⟨_, _, .tail (wrap patterns) inner, ?_⟩
        intro sp sq sr matched matchedQ matchedR
        obtain ⟨seg, subs, tail, rfl, opened, subsLen, whole⟩ := parts len matched
        rcases reach _ sq sr whole matchedQ matchedR with covered | ⟨_, member, earlierMatched⟩
        · exact .inl (covers seg subs tail sq sr opened subsLen covered)
        · obtain ⟨alternative, alternativeMember, rfl⟩ := List.mem_map.mp member
          obtain ⟨first, second⟩ := (matches_append (by simp [subsLen, len])).mp earlierMatched
          refine .inr ⟨wrap patterns :: alternative, ?_, matches_cons_cons.mpr
            ⟨(opens patterns seg).mpr ⟨subs, opened, first⟩, second⟩⟩
          simpa using alternativeMember
    · refine .inr ⟨r', earlier, narrow, ?_⟩
      intro sp sq sr matched matchedQ matchedR
      obtain ⟨seg, subs, tail, rfl, opened, subsLen, whole⟩ := parts len matched
      exact (reach _ sq sr whole matchedQ matchedR).imp_left
        (covers seg subs tail sq sr opened subsLen)

/-- The step of `u'` past a bind. -/
theorem sound_bind {rows : List SplitRow} {v : TVar} {pat1 : Pattern} {p : Pos}
    {pl q r : List Pattern} {answer : Useless} (sound : Sound S ρ rows (pat1 :: pl) q r answer) :
    Sound S ρ rows (patBind v pat1 p :: pl) q r answer := by
  have strip : ∀ {pat pl' segs}, S.Matches ρ (patBind v pat p :: pl') segs →
      (∃ w tail, segs = [w] :: tail) ∧ S.Matches ρ (pat :: pl') segs := by
    intro pat pl' segs matched
    obtain ⟨seg, tail, rfl, head, tailMatched⟩ := matches_cons.mp matched
    obtain ⟨⟨w, rfl⟩, inner⟩ := matchPat_bind.mp head
    exact ⟨⟨w, tail, rfl⟩, matches_cons_cons.mpr ⟨inner, tailMatched⟩⟩
  have bindBack : ∀ {pat pl' w tail}, S.Matches ρ (pat :: pl') ([w] :: tail) →
      S.Matches ρ (patBind v pat p :: pl') ([w] :: tail) := by
    intro pat pl' w tail matched
    obtain ⟨head, tailMatched⟩ := matches_cons_cons.mp matched
    exact matches_cons_cons.mpr ⟨matchPat_bind.mpr ⟨⟨w, rfl⟩, head⟩, tailMatched⟩
  cases answer with
  | true => trivial
  | false => exact fun sp sq sr matched => sound sp sq sr (strip matched).2
  | pos pos =>
    rcases sound with ⟨p', earlier, narrow, reach⟩ | ⟨r', earlier, narrow, reach⟩
    · cases narrow with
      | @head _ _ pat' before _ narrow =>
        refine .inl ⟨_, _, .head pl (.inBind v p narrow), ?_⟩
        intro sp sq sr matched matchedQ matchedR
        obtain ⟨⟨w, tail, rfl⟩, inner⟩ := strip matched
        refine (reach _ sq sr inner matchedQ matchedR).imp_right ?_
        rintro ⟨_, member, earlierMatched⟩
        obtain ⟨alternative, alternativeMember, rfl⟩ := List.mem_map.mp member
        exact ⟨_, by simpa using alternativeMember, bindBack earlierMatched⟩
      | @tail _ _ pl' before _ narrow =>
        refine .inl ⟨_, _, .tail (patBind v pat1 p) narrow, ?_⟩
        intro sp sq sr matched matchedQ matchedR
        obtain ⟨⟨w, tail, rfl⟩, inner⟩ := strip matched
        refine (reach _ sq sr inner matchedQ matchedR).imp_right ?_
        rintro ⟨_, member, earlierMatched⟩
        obtain ⟨alternative, alternativeMember, rfl⟩ := List.mem_map.mp member
        exact ⟨_, by simpa using alternativeMember, bindBack earlierMatched⟩
    · exact .inr ⟨r', earlier, narrow, fun sp sq sr matched => reach sp sq sr (strip matched).2⟩

/-- `transfer_column` from the looked-at columns to the wildcard columns. -/
def toWildcards (row : SplitRow) : SplitRow := (row.1.tail, row.1.take 1 ++ row.2.1, row.2.2)

/-- `transfer_column` from the looked-at columns to the or-pattern columns. -/
def toAlternatives (row : SplitRow) : SplitRow := (row.1.tail, row.2.1, row.1.take 1 ++ row.2.2)

theorem toWildcards_spec {column : Column Ty} {cp cq cr : List (Column Ty)}
    {rows : List SplitRow} (typed : TypedRows sig (column :: cp) cq cr rows) :
    TypedRows sig cp (column :: cq) cr (rows.map toWildcards) ∧
      ∀ seg tail sq sr, Covered S ρ (rows.map toWildcards) tail (seg :: sq) sr →
        Covered S ρ rows (seg :: tail) sq sr := by
  constructor
  · rintro _ member
    obtain ⟨⟨p, q, r⟩, source, rfl⟩ := List.mem_map.mp member
    obtain ⟨typedP, typedQ, typedR⟩ := typed _ source
    obtain ⟨pat, rest, rfl, head, tail⟩ := typedP.exists_cons
    exact ⟨tail, rowTyped_cons.mpr ⟨head, typedQ⟩, typedR⟩
  · rintro seg tail sq sr ⟨_, member, matchedP, matchedQ, matchedR⟩
    obtain ⟨⟨p, q, r⟩, source, rfl⟩ := List.mem_map.mp member
    obtain ⟨pat, rest, rfl, -, -⟩ := (typed _ source).1.exists_cons
    obtain ⟨head, tailMatched⟩ := matches_cons_cons.mp matchedQ
    exact ⟨_, source, matches_cons_cons.mpr ⟨head, matchedP⟩, tailMatched, matchedR⟩

theorem toAlternatives_spec {column : Column Ty} {cp cq cr : List (Column Ty)}
    {rows : List SplitRow} (typed : TypedRows sig (column :: cp) cq cr rows) :
    TypedRows sig cp cq (column :: cr) (rows.map toAlternatives) ∧
      ∀ seg tail sq sr, Covered S ρ (rows.map toAlternatives) tail sq (seg :: sr) →
        Covered S ρ rows (seg :: tail) sq sr := by
  constructor
  · rintro _ member
    obtain ⟨⟨p, q, r⟩, source, rfl⟩ := List.mem_map.mp member
    obtain ⟨typedP, typedQ, typedR⟩ := typed _ source
    obtain ⟨pat, rest, rfl, head, tail⟩ := typedP.exists_cons
    exact ⟨tail, typedQ, rowTyped_cons.mpr ⟨head, typedR⟩⟩
  · rintro seg tail sq sr ⟨_, member, matchedP, matchedQ, matchedR⟩
    obtain ⟨⟨p, q, r⟩, source, rfl⟩ := List.mem_map.mp member
    obtain ⟨pat, rest, rfl, -, -⟩ := (typed _ source).1.exists_cons
    obtain ⟨head, tailMatched⟩ := matches_cons_cons.mp matchedR
    exact ⟨_, source, matches_cons_cons.mpr ⟨head, matchedP⟩, matchedQ, tailMatched⟩

/-- The step of `u'` on a wildcard. -/
theorem sound_wildcard {column : Column Ty} {cp cq cr : List (Column Ty)}
    {rows : List SplitRow} (typed : TypedRows sig (column :: cp) cq cr rows)
    {pat : Pattern} {pl q r : List Pattern} {answer : Useless}
    (sound : Sound S ρ (rows.map toWildcards) pl (pat :: q) r answer) :
    Sound S ρ rows (pat :: pl) q r answer := by
  have covers := (toWildcards_spec (S := S) (ρ := ρ) typed).2
  cases answer with
  | true => trivial
  | false =>
    intro sp sq sr matched matchedQ matchedR
    obtain ⟨seg, tail, rfl, head, tailMatched⟩ := matches_cons.mp matched
    exact covers seg tail sq sr
      (sound tail _ sr tailMatched (matches_cons_cons.mpr ⟨head, matchedQ⟩) matchedR)
  | pos pos =>
    rcases sound with ⟨pl', earlier, narrow, reach⟩ | ⟨r', earlier, narrow, reach⟩
    · refine .inl ⟨_, _, .tail pat narrow, ?_⟩
      intro sp sq sr matched matchedQ matchedR
      obtain ⟨seg, tail, rfl, head, tailMatched⟩ := matches_cons.mp matched
      rcases reach tail _ sr tailMatched (matches_cons_cons.mpr ⟨head, matchedQ⟩) matchedR with
        covered | ⟨before, member, earlierMatched⟩
      · exact .inl (covers seg tail sq sr covered)
      · exact .inr ⟨_, List.mem_map.mpr ⟨before, member, rfl⟩,
          matches_cons_cons.mpr ⟨head, earlierMatched⟩⟩
    · refine .inr ⟨r', earlier, narrow, ?_⟩
      intro sp sq sr matched matchedQ matchedR
      obtain ⟨seg, tail, rfl, head, tailMatched⟩ := matches_cons.mp matched
      exact (reach tail _ sr tailMatched (matches_cons_cons.mpr ⟨head, matchedQ⟩) matchedR).imp_left
        (covers seg tail sq sr)

/-- The step of `u'` on an or-pattern. -/
theorem sound_alternatives {column : Column Ty} {cp cq cr : List (Column Ty)}
    {rows : List SplitRow} (typed : TypedRows sig (column :: cp) cq cr rows)
    {pat : Pattern} {pl q r : List Pattern} {answer : Useless}
    (sound : Sound S ρ (rows.map toAlternatives) pl q (pat :: r) answer) :
    Sound S ρ rows (pat :: pl) q r answer := by
  have covers := (toAlternatives_spec (S := S) (ρ := ρ) typed).2
  cases answer with
  | true => trivial
  | false =>
    intro sp sq sr matched matchedQ matchedR
    obtain ⟨seg, tail, rfl, head, tailMatched⟩ := matches_cons.mp matched
    exact covers seg tail sq sr
      (sound tail sq _ tailMatched matchedQ (matches_cons_cons.mpr ⟨head, matchedR⟩))
  | pos pos =>
    rcases sound with ⟨pl', earlier, narrow, reach⟩ | ⟨r', earlier, narrow, reach⟩
    · refine .inl ⟨_, _, .tail pat narrow, ?_⟩
      intro sp sq sr matched matchedQ matchedR
      obtain ⟨seg, tail, rfl, head, tailMatched⟩ := matches_cons.mp matched
      rcases reach tail sq _ tailMatched matchedQ (matches_cons_cons.mpr ⟨head, matchedR⟩) with
        covered | ⟨before, member, earlierMatched⟩
      · exact .inl (covers seg tail sq sr covered)
      · exact .inr ⟨_, List.mem_map.mpr ⟨before, member, rfl⟩,
          matches_cons_cons.mpr ⟨head, earlierMatched⟩⟩
    · cases narrow with
      | @head _ _ pat' before _ narrow =>
        refine .inl ⟨_, _, .head pl narrow, ?_⟩
        intro sp sq sr matched matchedQ matchedR
        obtain ⟨seg, tail, rfl, head, tailMatched⟩ := matches_cons.mp matched
        rcases reach tail sq _ tailMatched matchedQ (matches_cons_cons.mpr ⟨head, matchedR⟩) with
          covered | ⟨_, member, earlierMatched⟩
        · exact .inl (covers seg tail sq sr covered)
        · obtain ⟨alternative, alternativeMember, rfl⟩ := List.mem_map.mp member
          exact .inr ⟨_, List.mem_map.mpr ⟨alternative, alternativeMember, rfl⟩,
            matches_cons_cons.mpr ⟨(matches_cons_cons.mp earlierMatched).1, tailMatched⟩⟩
      | @tail _ _ r' before _ narrow =>
        refine .inr ⟨_, _, narrow, ?_⟩
        intro sp sq sr matched matchedQ matchedR
        obtain ⟨seg, tail, rfl, head, tailMatched⟩ := matches_cons.mp matched
        rcases reach tail sq _ tailMatched matchedQ (matches_cons_cons.mpr ⟨head, matchedR⟩) with
          covered | ⟨_, member, earlierMatched⟩
        · exact .inl (covers seg tail sq sr covered)
        · obtain ⟨alternative, alternativeMember, rfl⟩ := List.mem_map.mp member
          exact .inr ⟨alternative, alternativeMember, (matches_cons_cons.mp earlierMatched).2⟩

/-! ## The columns of or-patterns -/

def columnOf (i : Nat) (row : SplitRow) : Pattern := row.2.2[i]?.getD (patAny nullPos)

/-- The row `process_row` makes, with column `i` as the only one to look at. -/
def columnRow (i : Nat) (row : SplitRow) : SplitRow :=
  ([columnOf i row], row.2.2.eraseIdx i ++ row.2.1, [])

theorem columnRow_spec {cq cr : List (Column Ty)} {rows : List SplitRow}
    (typed : TypedRows sig [] cq cr rows) {i : Nat} {column : Column Ty}
    (columnAt : cr[i]? = some column) :
    (∀ row ∈ rows, row.2.2[i]? = some (columnOf i row)) ∧
      TypedRows sig [column] (cr.eraseIdx i ++ cq) [] (rows.map (columnRow i)) ∧
      ∀ seg sq sr, sr[i]? = some seg → sr.length = cr.length →
        Covered S ρ (rows.map (columnRow i)) [seg] (sr.eraseIdx i ++ sq) [] →
        Covered S ρ rows [] sq sr := by
  have bound : i < cr.length := (List.getElem?_eq_some_iff.mp columnAt).1
  have parts : ∀ row ∈ rows, row.2.2[i]? = some (columnOf i row) ∧
      sig.WellTyped column (columnOf i row) ∧
      sig.RowTyped (cr.eraseIdx i) (row.2.2.eraseIdx i) := by
    intro row member
    obtain ⟨column', pat, columnAt', patAt, head, rest⟩ := rowTyped_index (typed row member).2.2 bound
    obtain rfl := Option.some.inj (columnAt.symm.trans columnAt')
    have same : columnOf i row = pat := by simp [columnOf, patAt]
    exact ⟨same ▸ patAt, same ▸ head, rest⟩
  refine ⟨fun row member => (parts row member).1, ?_, ?_⟩
  · rintro _ member
    obtain ⟨row, source, rfl⟩ := List.mem_map.mp member
    obtain ⟨-, head, rest⟩ := parts row source
    exact ⟨⟨column, [], rfl, head, rfl⟩, rest.append (typed row source).2.1, rfl⟩
  · rintro seg sq sr segAt len ⟨_, member, matchedP, matchedQ, -⟩
    obtain ⟨row, source, rfl⟩ := List.mem_map.mp member
    obtain ⟨patAt, -, -⟩ := parts row source
    obtain ⟨typedP, -, typedR⟩ := typed row source
    have sameLen : (sr.eraseIdx i).length = (row.2.2.eraseIdx i).length := by
      simp [List.length_eraseIdx, len, typedR.length_eq]
    obtain ⟨rest, wild⟩ := (matches_append sameLen).mp matchedQ
    obtain ⟨head, -⟩ := matches_cons_cons.mp matchedP
    have empty : row.1 = [] := List.length_eq_zero_iff.mp typedP.length_eq
    exact ⟨row, source, by simp [empty], wild, (matches_index patAt).mpr ⟨seg, segAt, head, rest⟩⟩

/-- `Sound` for a row with one column to look at, whose covered vectors are `covers`. -/
def SoundOne (S : Semantics Value) (ρ : Env Value)
    (covers : List Value → List (List Value) → Prop) (pat : Pattern) (l : List Pattern) :
    Useless → Prop
  | .true => True
  | .false => ∀ seg sl, S.matchPat ρ pat seg ≠ [] → S.Matches ρ l sl → covers seg sl
  | .pos pos => ∃ pat' earlier, Narrow pat pos pat' earlier ∧
      ∀ seg sl, S.matchPat ρ pat' seg ≠ [] → S.Matches ρ l sl →
        covers seg sl ∨ ∃ before ∈ earlier, S.matchPat ρ before seg ≠ []

theorem soundOne_of_sound {rows : List SplitRow} {pat : Pattern} {l : List Pattern}
    {answer : Useless} (sound : Sound S ρ rows [pat] l [] answer) :
    SoundOne S ρ (fun seg sl => Covered S ρ rows [seg] sl []) pat l answer := by
  have single : ∀ {pat' : Pattern} {seg : List Value}, S.matchPat ρ pat' seg ≠ [] →
      S.Matches ρ [pat'] [seg] := fun head => matches_cons_cons.mpr ⟨head, matches_nil.mpr rfl⟩
  cases answer with
  | true => trivial
  | false => exact fun seg sl head matched => sound [seg] sl [] (single head) matched (by simp)
  | pos pos =>
    rcases sound with ⟨p', earlier, narrow, reach⟩ | ⟨r', earlier, narrow, -⟩
    · cases narrow with
      | @head _ _ pat' before _ narrow =>
        refine ⟨pat', before, narrow, fun seg sl head matched => ?_⟩
        refine (reach [seg] sl [] (single head) matched (by simp)).imp_right ?_
        rintro ⟨_, member, earlierMatched⟩
        obtain ⟨alternative, alternativeMember, rfl⟩ := List.mem_map.mp member
        exact ⟨alternative, alternativeMember, (matches_cons_cons.mp earlierMatched).1⟩
      | tail _ narrow => cases narrow
    · cases narrow

theorem covered_append_single {rows : List SplitRow} {pat : Pattern} {l : List Pattern}
    {seg : List Value} {sl : List (List Value)}
    (covered : Covered S ρ (rows ++ [([pat], l, [])]) [seg] sl []) :
    Covered S ρ rows [seg] sl [] ∨ S.matchPat ρ pat seg ≠ [] := by
  obtain ⟨row, member, matched⟩ := covered
  rcases List.mem_append.mp member with member | member
  · exact .inl ⟨row, member, matched⟩
  · obtain rfl := List.mem_singleton.mp member
    exact .inr (matches_cons_cons.mp matched.1).1

/-- A narrowing in column `i` whose values are covered there narrows the row. -/
theorem sound_index {cq cr : List (Column Ty)} {rows : List SplitRow}
    (typed : TypedRows sig [] cq cr rows) {i : Nat} {column : Column Ty}
    (columnAt : cr[i]? = some column) {q r : List Pattern} (rTyped : sig.RowTyped cr r)
    {pat pat' : Pattern} (patAt : r[i]? = some pat) {pos : Pos} {earlier : List Pattern}
    (narrow : Narrow pat pos pat' earlier)
    (reach : ∀ seg sl, S.matchPat ρ pat' seg ≠ [] → S.Matches ρ (r.eraseIdx i ++ q) sl →
      Covered S ρ (rows.map (columnRow i)) [seg] sl [] ∨
        ∃ before ∈ earlier, S.matchPat ρ before seg ≠ []) :
    Sound S ρ rows [] q r (.pos pos) := by
  obtain ⟨-, -, covers⟩ := columnRow_spec (S := S) (ρ := ρ) typed columnAt
  have setAt : ∀ pat, (r.set i pat)[i]? = some pat := fun pat => by
    simp [(List.getElem?_eq_some_iff.mp patAt).1]
  refine .inr ⟨_, _, .of_index patAt narrow, ?_⟩
  intro sp sq sr matched matchedQ matchedR
  obtain rfl := matches_nil.mp matched
  have len : sr.length = cr.length := by
    rw [matchedR.length_eq, List.length_set, rTyped.length_eq]
  obtain ⟨seg, segAt, head, rest⟩ := (matches_index (setAt pat')).mp matchedR
  rw [List.eraseIdx_set_eq] at rest
  rcases reach seg _ head ((matches_append rest.length_eq).mpr ⟨rest, matchedQ⟩) with
    covered | ⟨before, member, earlierHead⟩
  · exact .inl (covers seg sq sr segAt len covered)
  · refine .inr ⟨_, List.mem_map_of_mem member, (matches_index (setAt before)).mpr
      ⟨seg, segAt, earlierHead, ?_⟩⟩
    rwa [List.eraseIdx_set_eq]

/-- The answers about the two alternatives in column `i`, combined, are an answer about
the row. -/
theorem sound_column {cq cr : List (Column Ty)} {rows : List SplitRow}
    (typed : TypedRows sig [] cq cr rows) {i : Nat} {column : Column Ty}
    (columnAt : cr[i]? = some column) {q r : List Pattern} (rTyped : sig.RowTyped cr r)
    {pat1 pat2 : Pattern} {p : Pos} (patAt : r[i]? = some (patOr pat1 pat2 p))
    {et1 et2 : Useless}
    (sound1 : Sound S ρ (rows.map (columnRow i)) [pat1] (r.eraseIdx i ++ q) [] et1)
    (sound2 : Sound S ρ (rows.map (columnRow i) ++ [([pat1], r.eraseIdx i ++ q, [])])
      [pat2] (r.eraseIdx i ++ q) [] et2) :
    Sound S ρ rows [] q r (combine (.true, punion pat1.pos pat2.pos)
      (combine (et1, pat1.pos) (et2, pat2.pos), punion pat1.pos pat2.pos)) := by
  have index : ∀ {pos pat' earlier}, Narrow (patOr pat1 pat2 p) pos pat' earlier → _ :=
    fun narrow => sound_index (S := S) (ρ := ρ) typed columnAt (q := q) rTyped patAt narrow
  have one1 := soundOne_of_sound sound1
  have one2 := soundOne_of_sound sound2
  cases et1 with
  | true =>
    cases et2 with
    | true => trivial
    | false =>
      refine index (.right pat1 pat2 p) fun seg sl head matched => ?_
      simpa using covered_append_single (one2 seg sl head matched)
    | pos pos =>
      obtain ⟨pat', earlier, narrow, reach⟩ := one2
      refine index (.inRight pat1 p narrow) fun seg sl head matched => ?_
      rcases reach seg sl head matched with covered | ⟨before, member, earlierHead⟩
      · exact (covered_append_single covered).imp_right fun first =>
          ⟨pat1, List.mem_cons_self, first⟩
      · exact .inr ⟨before, .tail _ member, earlierHead⟩
  | false =>
    cases et2 with
    | true | pos _ =>
      exact index (.left pat1 pat2 p) fun seg sl head matched => .inl (one1 seg sl head matched)
    | false =>
      refine index (.whole pat1 pat2 p) fun seg sl head matched => .inl ?_
      rcases matchPat_or.mp head with head | head
      · exact one1 seg sl head matched
      · exact (covered_append_single (one2 seg sl head matched)).elim id
          fun first => one1 seg sl first matched
  | pos pos =>
    obtain ⟨pat', earlier, narrow, reach⟩ := one1
    cases et2 <;> exact index (.inLeft pat2 p narrow) reach

/-! ## The run -/

theorem combine_pos (pos p : Pos) (et : Useless × Pos) : combine (.pos pos, p) et = .pos pos := by
  rcases et with ⟨_ | _ | _, _⟩ <;> rfl

theorem combine_true_ne_false (et : Useless) (p p' : Pos) :
    combine (.true, p) (et, p') ≠ .false := by
  cases et <;> simp [combine]

/-- Only or-patterns are put among the or-pattern columns. -/
def Alternatives (r : List Pattern) : Prop := ∀ pat ∈ r, ∃ pat1 pat2 p, pat = patOr pat1 pat2 p

mutual

/-- On typed matrices `u'` returns, and its answer is sound. -/
theorem u'_sound (uniform : sig.UniformFields) (S : Semantics Value) (ρ : Env Value)
    {rows : List SplitRow} {cp cq cr : List (Column Ty)} (typed : TypedRows sig cp cq cr rows)
    (p q r : List Pattern) (pTyped : sig.RowTyped cp p) (qTyped : sig.RowTyped cq q)
    (rTyped : sig.RowTyped cr r) (alternatives : Alternatives r) :
    ∃ answer, u' (rows.map fun row => row.1) (rows.map fun row => row.2.1)
      (rows.map fun row => row.2.2) p q r = some answer ∧ Sound S ρ rows p q r answer := by
  match p with
  | [] =>
    obtain rfl : cp = [] := pTyped
    by_cases empty : r = []
    · subst empty
      obtain rfl : cr = [] := rTyped
      refine ⟨if u (rows.map fun row => row.2.1) q then .true else .false, by simp [u'], ?_⟩
      split
      · trivial
      · rename_i useless
        intro sp sq sr matched matchedQ matchedR
        obtain rfl := matches_nil.mp matched
        obtain rfl := matches_nil.mp matchedR
        have qRowsTyped : ∀ row ∈ rows.map fun row => row.2.1, sig.RowTyped cq row := by
          intro _ member
          obtain ⟨row, source, rfl⟩ := List.mem_map.mp member
          exact (typed row source).2.1
        obtain ⟨_, member, rowMatched⟩ :=
          u_sound uniform qTyped qRowsTyped (by simpa using useless) matchedQ
        obtain ⟨row, source, rfl⟩ := List.mem_map.mp member
        obtain ⟨typedP, -, typedR⟩ := typed row source
        have emptyP : row.1 = [] := List.length_eq_zero_iff.mp typedP.length_eq
        have emptyR : row.2.2 = [] := List.length_eq_zero_iff.mp typedR.length_eq
        exact ⟨row, source, by simp [emptyP], rowMatched, by simp [emptyR]⟩
    · obtain ⟨answer, run, sound⟩ := uColumns_sound uniform S ρ typed q r qTyped rTyped
        alternatives [] r rfl .true (by simp) trivial
      refine ⟨answer, ?_, sound⟩
      rw [u', if_neg (by simpa using empty)]
      exact run
  | patConstructor con patterns pos :: pl =>
    obtain ⟨column, cp, rfl, headTyped, restTyped⟩ := pTyped
    obtain ⟨ts, splits, allTyped⟩ := splits_constructor headTyped
    obtain ⟨answer, run, sound⟩ := u'_sound uniform S ρ
      (specializeRows_sound (S := S) (ρ := ρ) uniform splits typed).1 (patterns ++ pl) q r
      ((rowTyped_of_allTyped allTyped).append restTyped) qTyped rTyped alternatives
    refine ⟨answer, by simpa [u', specialize'_eq] using run, ?_⟩
    exact sound_components uniform splits (fun patterns => patConstructor con patterns pos)
      (fun _ _ => opens_constructor) (.inConstructor con pos) typed allTyped.length_eq sound
  | patTuple patterns pos :: pl =>
    obtain ⟨column, cp, rfl, headTyped, restTyped⟩ := pTyped
    obtain ⟨ts, splits, allTyped⟩ := splits_tuple tupleCon headTyped
    obtain ⟨answer, run, sound⟩ := u'_sound uniform S ρ
      (specializeRows_sound (S := S) (ρ := ρ) uniform splits typed).1 (patterns ++ pl) q r
      ((rowTyped_of_allTyped allTyped).append restTyped) qTyped rTyped alternatives
    refine ⟨answer, by simpa [u', specialize'_eq] using run, ?_⟩
    exact sound_components uniform splits (fun patterns => patTuple patterns pos)
      (fun _ _ => opens_tuple) (.inTuple pos) typed allTyped.length_eq sound
  | patAny pos :: pl =>
    obtain ⟨column, cp, rfl, headTyped, restTyped⟩ := pTyped
    obtain ⟨answer, run, sound⟩ := u'_sound uniform S ρ
      (toWildcards_spec (S := S) (ρ := ρ) typed).1 pl (patAny pos :: q) r restTyped
      (rowTyped_cons.mpr ⟨headTyped, qTyped⟩) rTyped alternatives
    exact ⟨answer, by simpa [u', transferColumn_eq rows _ _ fun row member =>
      (typed row member).1.ne_nil, Function.comp_def, toWildcards] using run,
      sound_wildcard typed sound⟩
  | patVariable v pos :: pl =>
    obtain ⟨column, cp, rfl, headTyped, restTyped⟩ := pTyped
    obtain ⟨answer, run, sound⟩ := u'_sound uniform S ρ
      (toWildcards_spec (S := S) (ρ := ρ) typed).1 pl (patVariable v pos :: q) r restTyped
      (rowTyped_cons.mpr ⟨headTyped, qTyped⟩) rTyped alternatives
    exact ⟨answer, by simpa [u', transferColumn_eq rows _ _ fun row member =>
      (typed row member).1.ne_nil, Function.comp_def, toWildcards] using run,
      sound_wildcard typed sound⟩
  | patOr pat1 pat2 pos :: pl =>
    obtain ⟨column, cp, rfl, headTyped, restTyped⟩ := pTyped
    obtain ⟨answer, run, sound⟩ := u'_sound uniform S ρ
      (toAlternatives_spec (S := S) (ρ := ρ) typed).1 pl q (patOr pat1 pat2 pos :: r) restTyped
      qTyped (rowTyped_cons.mpr ⟨headTyped, rTyped⟩)
      (List.forall_mem_cons.mpr ⟨⟨pat1, pat2, pos, rfl⟩, alternatives⟩)
    exact ⟨answer, by simpa [u', transferColumn_eq rows _ _ fun row member =>
      (typed row member).1.ne_nil, Function.comp_def, toAlternatives] using run,
      sound_alternatives typed sound⟩
  | patBind v pat1 pos :: pl =>
    obtain ⟨column, cp, rfl, ⟨t, rfl, headTyped⟩, restTyped⟩ := pTyped
    obtain ⟨answer, run, sound⟩ := u'_sound uniform S ρ typed (pat1 :: pl) q r
      (rowTyped_cons.mpr ⟨headTyped, restTyped⟩) qTyped rTyped alternatives
    exact ⟨answer, by simpa [u'] using run, sound_bind sound⟩
  | patExtractor v e pat pos :: pl => exact ⟨.true, by simp [u'], trivial⟩
termination_by (sizes p + sizes r, sizes p + 1)
decreasing_by all_goals (simp_wf; simp only [sizes, size]; omega)

theorem uColumns_sound (uniform : sig.UniformFields) (S : Semantics Value) (ρ : Env Value)
    {rows : List SplitRow} {cq cr : List (Column Ty)} (typed : TypedRows sig [] cq cr rows)
    (q r : List Pattern) (qTyped : sig.RowTyped cq q) (rTyped : sig.RowTyped cr r)
    (alternatives : Alternatives r) (done rest : List Pattern) (split : r = done ++ rest)
    (et : Useless) (started : et ≠ .false) (sound : Sound S ρ rows [] q r et) :
    ∃ answer, uColumns (rows.map fun row => row.2.1) (rows.map fun row => row.2.2) q r rest
      done.length et = some answer ∧ Sound S ρ rows [] q r answer := by
  match rest with
  | [] => exact ⟨et, by simp [uColumns], sound⟩
  | patOr pat1 pat2 pos :: rest =>
    have patAt : r[done.length]? = some (patOr pat1 pat2 pos) := by simp [split]
    have bound : done.length < cr.length := by
      rw [← rTyped.length_eq]
      exact (List.getElem?_eq_some_iff.mp patAt).1
    obtain ⟨column, pat', columnAt, patAt', headTyped, restTyped⟩ := rowTyped_index rTyped bound
    obtain rfl := Option.some.inj (patAt.symm.trans patAt')
    obtain ⟨present, columnTyped, -⟩ := columnRow_spec (S := S) (ρ := ρ) typed columnAt
    have lTyped := restTyped.append qTyped
    have single : ∀ {pat}, sig.WellTyped column pat → sig.RowTyped [column] [pat] :=
      fun head => rowTyped_cons.mpr ⟨head, rfl⟩
    have extended : TypedRows sig [column] (cr.eraseIdx done.length ++ cq) []
        (rows.map (columnRow done.length) ++ [([pat1], r.eraseIdx done.length ++ q, [])]) := by
      intro row member
      rcases List.mem_append.mp member with member | member
      · exact columnTyped row member
      · obtain rfl := List.mem_singleton.mp member
        exact ⟨single headTyped.1, lTyped, rfl⟩
    obtain ⟨et1, run1, sound1⟩ := u'_sound uniform S ρ columnTyped [pat1]
      (r.eraseIdx done.length ++ q) [] (single headTyped.1) lTyped rfl (by simp [Alternatives])
    obtain ⟨et2, run2, sound2⟩ := u'_sound uniform S ρ extended [pat2]
      (r.eraseIdx done.length ++ q) [] (single headTyped.2) lTyped rfl (by simp [Alternatives])
    have both := sound_column typed columnAt rTyped patAt sound1 sound2
    have step : ∃ next, next = combine (et, punion pat1.pos pat2.pos)
        (combine (et1, pat1.pos) (et2, pat2.pos), punion pat1.pos pat2.pos) ∧
        next ≠ .false ∧ Sound S ρ rows [] q r next := by
      refine ⟨_, rfl, ?_⟩
      cases et with
      | false => exact absurd rfl started
      | pos pos => rw [combine_pos]; exact ⟨started, sound⟩
      | true => exact ⟨combine_true_ne_false _ _ _, both⟩
    obtain ⟨next, nextIs, nextStarted, nextSound⟩ := step
    obtain ⟨answer, run, answerSound⟩ := uColumns_sound uniform S ρ typed q r qTyped rTyped
      alternatives (done ++ [patOr pat1 pat2 pos]) rest (by simp [split]) next nextStarted nextSound
    refine ⟨answer, ?_, answerSound⟩
    simp only [List.map_map, List.map_append, List.map_cons, List.map_nil, Function.comp_def,
      columnRow] at run1 run2
    simp only [List.length_append, List.length_cons, List.length_nil, Nat.zero_add] at run
    simp only [uColumns, processRows_eq _ rows _ present, processRow, patAt, copy, List.map_map,
      List.map_append, List.map_cons, List.map_nil, Function.comp_def, Option.bind_eq_bind,
      Option.bind_some, run1, run2, ← nextIs, run]
  | patConstructor .. :: _ | patTuple .. :: _ | patAny _ :: _ | patVariable .. :: _
  | patBind .. :: _ | patExtractor .. :: _ =>
    obtain ⟨_, _, _, same⟩ := alternatives _ (split ▸ List.mem_append_right _ List.mem_cons_self)
    cases same
termination_by (sizes rest, 0)
decreasing_by all_goals (simp only [sizes, size]; omega)

end

end Haxe.Source.Typing.UselessPatterns
