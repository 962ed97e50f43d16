import Haxe.Source.Std.UnicodeStringSearch

/-!
# Unicode strings work on code points

The methods of `UnicodeString` select code points as they are documented. The searches start again
where a comparison ends instead of behind its first code point, so that they see only the
occurrences at their restart points. Besides, `indexOf` compares with the end of the string too, a
negative start of `lastIndexOf` counts as 0, and the limit of its loop may overflow.
-/

namespace Haxe.Guarantees.UnicodeStrings

open Haxe.Source.UnicodeString Haxe.Theory.Utf16 Haxe.Theory.GreedySearch

variable (target : Target)

/-- The search string occurs at a code point. -/
def Occurs (cs needle : List Char) (p : Nat) : Prop := needle <+: cs.drop p

/-- The documentation of `indexOf`. -/
def IndexOfSpec (cs needle : List Char) (start : Nat) (result : Int) : Prop :=
  (result = -1 ∧ ∀ p, start ≤ p → ¬ Occurs cs needle p) ∨
    ∃ p : Nat, result = p ∧ start ≤ p ∧ Occurs cs needle p ∧
      ∀ q, start ≤ q → q < p → ¬ Occurs cs needle q

/-- The documentation of `lastIndexOf`. -/
def LastIndexOfSpec (cs needle : List Char) (startIndex : Option Int) (result : Int) : Prop :=
  (result = -1 ∧ ∀ p : Nat, (∀ i, startIndex = some i → p ≤ i) → ¬ Occurs cs needle p) ∨
    ∃ p : Nat, result = p ∧ (∀ i, startIndex = some i → p ≤ i) ∧ Occurs cs needle p ∧
      ∀ q : Nat, (∀ i, startIndex = some i → q ≤ i) → p < q → ¬ Occurs cs needle q

/-- The leftmost occurrence is a restart point, and none in front of it reaches over the end. -/
structure IndexSeen (cs needle : List Char) (start : Nat) : Prop where
  leftmost : ∀ p, start ≤ p → Occurs cs needle p →
    (∀ q, start ≤ q → q < p → ¬ Occurs cs needle q) →
    IsRestart (codes needle) (ended target cs) never start p
  inside : ∀ r, IsRestart (codes needle) (ended target cs) never start r →
    codes needle <+: (ended target cs).drop r → ∃ q, start ≤ q ∧ q ≤ r ∧ Occurs cs needle q

/-- The limit does not overflow and the rightmost occurrence is a restart point, and none at 0 is in
front of a negative start. -/
structure LastIndexSeen (cs needle : List Char) (startIndex : Option Int) : Prop where
  negative : ∀ i, startIndex = some i → i < 0 → ¬ Occurs cs needle 0
  rightmost : ∀ p : Nat, (∀ i, startIndex = some i → p ≤ i) → Occurs cs needle p →
    (∀ q : Nat, (∀ i, startIndex = some i → q ≤ i) → p < q → ¬ Occurs cs needle q) →
    target.add (lastStartOf (encode cs) startIndex) needle.length =
        lastStartOf (encode cs) startIndex + needle.length ∧
      IsRestart (codes needle)
        (front cs (lastStartOf (encode cs) startIndex + needle.length)) (isEof target) 0 p

theorem code_injective : Function.Injective fun c : Char => (c.toNat : Int) := by
  intro c c' same
  exact Char.ext (UInt32.toNat_inj.mp (Int.ofNat.inj same))

theorem codes_prefix_iff {needle cs : List Char} {p : Nat} :
    codes needle <+: (codes cs).drop p ↔ Occurs cs needle p := by
  unfold codes Occurs
  rw [← List.map_drop]
  exact List.prefix_map_iff_of_injective code_injective

theorem Occurs.lt_length {cs needle : List Char} (nonempty : needle ≠ []) {p : Nat}
    (occurs : Occurs cs needle p) : p + needle.length ≤ cs.length := by
  have length := occurs.length_le
  have positive := List.length_pos_iff.mpr nonempty
  rw [List.length_drop] at length
  omega

theorem occurs_ended {cs needle : List Char} (nonempty : needle ≠ []) {p : Nat}
    (occurs : Occurs cs needle p) : codes needle <+: (ended target cs).drop p := by
  have inside := occurs.lt_length nonempty
  unfold ended
  rw [List.drop_append_of_le_length (by rw [length_codes]; omega)]
  exact (codes_prefix_iff.mpr occurs).trans (List.prefix_append ..)

theorem occurs_front_iff {cs needle : List Char} (nonempty : needle ≠ []) {p limit : Nat} :
    codes needle <+: (front cs (limit + needle.length : Nat)).drop p ↔
      Occurs cs needle p ∧ p ≤ limit := by
  have positive := List.length_pos_iff.mpr nonempty
  unfold front
  rw [Int.toNat_natCast, List.drop_take]
  constructor
  · intro occurs
    have length := occurs.length_le
    rw [List.length_take, length_codes] at length
    exact ⟨codes_prefix_iff.mp (occurs.trans (List.take_prefix ..)), by omega⟩
  · rintro ⟨occurs, within⟩
    rw [List.prefix_take_iff, length_codes]
    exact ⟨codes_prefix_iff.mpr occurs, by omega⟩

/-- An occurrence has a leftmost one in front of it. -/
theorem exists_leftmost {cs needle : List Char} {start q : Nat} (behind : start ≤ q)
    (occurs : Occurs cs needle q) :
    ∃ p, start ≤ p ∧ p ≤ q ∧ Occurs cs needle p ∧
      ∀ q', start ≤ q' → q' < p → ¬ Occurs cs needle q' := by
  induction q using Nat.strongRecOn with
  | ind q ih =>
    by_cases earlier : ∃ q', start ≤ q' ∧ q' < q ∧ Occurs cs needle q'
    · obtain ⟨q', behind', before, occurs'⟩ := earlier
      obtain ⟨p, first, upTo, rest⟩ := ih q' before behind' occurs'
      exact ⟨p, first, Nat.le_trans upTo (Nat.le_of_lt before), rest⟩
    · exact ⟨q, behind, Nat.le_refl q, occurs, fun q' behind' before occurs' =>
        earlier ⟨q', behind', before, occurs'⟩⟩

theorem indexOf_iff {cs needle : List Char} (nonempty : needle ≠ []) {start : Nat} {result : Int}
    (first : FirstRestart (codes needle) (ended target cs) start result) :
    IndexOfSpec cs needle start result ↔ IndexSeen target cs needle start := by
  obtain ⟨k, rfl, found, absent⟩ | ⟨rfl, absent⟩ := first
  · constructor
    · rintro (⟨none_, -⟩ | ⟨p, same, behind, occurs, leftmost⟩)
      · omega
      · have same : restart (codes needle) (ended target cs) never start k = p := Int.ofNat.inj same
        refine ⟨fun p' behind' occurs' leftmost' => ⟨k, ?_⟩, ?_⟩
        · rw [same]
          by_contra other
          obtain before | after := Nat.lt_or_gt_of_ne other
          · exact leftmost' p behind before occurs
          · exact leftmost p' behind' after occurs'
        · rintro r ⟨k', rfl⟩ found'
          refine ⟨p, behind, ?_, occurs⟩
          rw [← same]
          by_contra before
          exact absent k' (lt_of_restart_lt (Nat.not_le.mp before)) found'
    · rintro ⟨leftmost, inside⟩
      obtain ⟨q, behind, upTo, occurs⟩ := inside _ ⟨k, rfl⟩ found
      obtain ⟨p, behind', upTo', occurs', least⟩ := exists_leftmost behind occurs
      obtain ⟨k', isRestart⟩ := leftmost p behind' occurs' least
      have same : restart (codes needle) (ended target cs) never start k = p := by
        by_contra other
        have found' := occurs_ended target nonempty occurs'
        rw [← isRestart] at found'
        have before : restart (codes needle) (ended target cs) never start k' <
            restart (codes needle) (ended target cs) never start k := by omega
        exact absent k' (lt_of_restart_lt before) found'
      exact .inr ⟨p, congrArg Nat.cast same, behind', occurs', least⟩
  · constructor
    · rintro (⟨-, none_⟩ | ⟨p, same, -⟩)
      · refine ⟨fun p behind occurs => absurd occurs (none_ p behind), ?_⟩
        rintro r ⟨k, rfl⟩ found
        exact absurd found (absent k)
      · omega
    · rintro ⟨leftmost, -⟩
      refine .inl ⟨rfl, fun q behind occurs => ?_⟩
      obtain ⟨p, behind', -, occurs', least⟩ := exists_leftmost behind occurs
      obtain ⟨k, rfl⟩ := leftmost p behind' occurs' least
      exact absent k (occurs_ended target nonempty occurs')

/-- An occurrence has a rightmost one behind it. -/
theorem exists_rightmost {cs needle : List Char} {limit q : Nat} (within : q ≤ limit)
    (occurs : Occurs cs needle q) :
    ∃ p ≤ limit, q ≤ p ∧ Occurs cs needle p ∧ ∀ q' ≤ limit, p < q' → ¬ Occurs cs needle q' := by
  generalize left : limit - q = n
  induction n using Nat.strongRecOn generalizing q with
  | ind n ih =>
    by_cases later : ∃ q' ≤ limit, q < q' ∧ Occurs cs needle q'
    · obtain ⟨q', within', behind, occurs'⟩ := later
      obtain ⟨p, last, after, rest⟩ := ih (limit - q') (by omega) within' occurs' rfl
      exact ⟨p, last, by omega, rest⟩
    · exact ⟨q, within, Nat.le_refl q, occurs, fun q' within' behind occurs' =>
        later ⟨q', within', behind, occurs'⟩⟩

/-- The last restart point with an occurrence up to a place. -/
theorem lastRestart_iff {cs needle : List Char} (nonempty : needle ≠ []) {limit : Nat}
    {result : Int}
    (last : LastRestart (codes needle) (front cs (limit + needle.length : Nat)) (isEof target)
      result) :
    ((result = -1 ∧ ∀ p ≤ limit, ¬ Occurs cs needle p) ∨
        ∃ p : Nat, result = p ∧ p ≤ limit ∧ Occurs cs needle p ∧
          ∀ q ≤ limit, p < q → ¬ Occurs cs needle q) ↔
      ∀ p ≤ limit, Occurs cs needle p → (∀ q ≤ limit, p < q → ¬ Occurs cs needle q) →
        IsRestart (codes needle) (front cs (limit + needle.length : Nat)) (isEof target) 0 p := by
  obtain ⟨latest, rfl, k, beyond, upTo⟩ := last
  cases latest with
  | none =>
    have absent (i : Nat) : ¬ codes needle <+: (front cs (limit + needle.length : Nat)).drop
        (restart (codes needle) (front cs (limit + needle.length : Nat)) (isEof target) 0 i) := by
      by_cases before : i < k
      · exact upTo i before
      · exact beyond i (Nat.not_lt.mp before)
    constructor
    · rintro (⟨-, none_⟩ | ⟨p, same, -⟩)
      · exact fun p within occurs => absurd occurs (none_ p within)
      · cases same
    · intro rightmost
      refine .inl ⟨rfl, fun q within occurs => ?_⟩
      obtain ⟨p, within', -, occurs', greatest⟩ := exists_rightmost within occurs
      obtain ⟨k', isRestart⟩ := rightmost p within' occurs' greatest
      have found := (occurs_front_iff nonempty).mpr ⟨occurs', within'⟩
      rw [← isRestart] at found
      exact absent k' found
  | some r =>
    obtain ⟨i, before, isRestart, found, later⟩ := upTo
    obtain ⟨occurs, within⟩ := (occurs_front_iff nonempty).mp found
    constructor
    · rintro (⟨none_, -⟩ | ⟨p, same, within', occurs', greatest⟩)
      · cases none_
      · obtain rfl : r = p := Int.ofNat.inj same
        refine fun p' within'' occurs'' greatest' => ⟨i, isRestart.symm.trans ?_⟩
        by_contra other
        obtain less | more := Nat.lt_or_gt_of_ne other
        · exact greatest p' within'' less occurs''
        · exact greatest' r within more occurs
    · intro rightmost
      obtain ⟨p, within', behind, occurs', greatest⟩ := exists_rightmost within occurs
      obtain ⟨k', isRestart'⟩ := rightmost p within' occurs' greatest
      have found' := (occurs_front_iff nonempty).mpr ⟨occurs', within'⟩
      have same : r = p := by
        by_contra other
        rw [← isRestart'] at found'
        have upper : restart (codes needle) (front cs (limit + needle.length : Nat))
            (isEof target) 0 i <
            restart (codes needle) (front cs (limit + needle.length : Nat))
              (isEof target) 0 k' := by
          omega
        have after := lt_of_restart_lt upper
        by_cases inside : k' < k
        · exact later k' after inside found'
        · exact beyond k' (Nat.not_lt.mp inside) found'
      exact .inr ⟨p, congrArg Nat.cast same, within', occurs', greatest⟩

/-- A place that is within the start of the search for the last occurrence. -/
theorem within_iff {cs needle : List Char} (nonempty : needle ≠ []) {startIndex : Option Int}
    (natural : ∀ i, startIndex = some i → 0 ≤ i) {p : Nat} (occurs : Occurs cs needle p) :
    (∀ i, startIndex = some i → (p : Int) ≤ i) ↔
      p ≤ (lastStartOf (encode cs) startIndex).toNat := by
  cases startIndex with
  | none =>
    have inside := occurs.lt_length nonempty
    have length := length_le_encode cs
    have upTo : p ≤ (lastStartOf (encode cs) none).toNat := by
      unfold lastStartOf
      dsimp only
      omega
    exact iff_of_true (fun i none_ => by cases none_) upTo
  | some i =>
    have natural := natural i rfl
    unfold lastStartOf
    dsimp only
    rw [if_neg (by omega)]
    constructor
    · intro within
      have := within i rfl
      omega
    · intro within i' same
      obtain rfl := Option.some.inj same
      omega

/-- With a start that is not negative, and without an overflow. -/
theorem lastIndexOf_iff_natural {cs needle : List Char} (nonempty : needle ≠ [])
    {startIndex : Option Int} (natural : ∀ i, startIndex = some i → 0 ≤ i) {result : Int}
    {limit : Nat} (start : lastStartOf (encode cs) startIndex = limit)
    (exact_ : target.add limit needle.length = limit + needle.length)
    (last : LastRestart (codes needle) (front cs (limit + needle.length : Nat)) (isEof target)
      result) :
    LastIndexOfSpec cs needle startIndex result ↔ LastIndexSeen target cs needle startIndex := by
  have within {p : Nat} (occurs : Occurs cs needle p) :
      (∀ i, startIndex = some i → (p : Int) ≤ i) ↔ p ≤ limit := by
    rw [within_iff nonempty natural occurs, start, Int.toNat_natCast]
  have spec : LastIndexOfSpec cs needle startIndex result ↔
      (result = -1 ∧ ∀ p ≤ limit, ¬ Occurs cs needle p) ∨
        ∃ p : Nat, result = p ∧ p ≤ limit ∧ Occurs cs needle p ∧
          ∀ q ≤ limit, p < q → ¬ Occurs cs needle q := by
    refine or_congr (and_congr_right fun _ => forall_congr' fun p => ?_)
      (exists_congr fun p => and_congr_right fun _ => ?_)
    · exact ⟨fun none_ upTo occurs => none_ ((within occurs).mpr upTo) occurs,
        fun none_ upTo occurs => none_ ((within occurs).mp upTo) occurs⟩
    · constructor
      · rintro ⟨upTo, occurs, greatest⟩
        exact ⟨(within occurs).mp upTo, occurs, fun q upTo' less occurs' =>
          greatest q ((within occurs').mpr upTo') less occurs'⟩
      · rintro ⟨upTo, occurs, greatest⟩
        exact ⟨(within occurs).mpr upTo, occurs, fun q upTo' less occurs' =>
          greatest q ((within occurs').mp upTo') less occurs'⟩
  rw [spec, lastRestart_iff target nonempty last]
  constructor
  · intro rightmost
    refine ⟨fun i same negative => absurd (natural i same) (by omega), ?_⟩
    intro p upTo occurs greatest
    rw [start]
    exact ⟨exact_, rightmost p ((within occurs).mp upTo) occurs fun q upTo' less occurs' =>
      greatest q ((within occurs').mpr upTo') less occurs'⟩
  · rintro ⟨-, rightmost⟩ p upTo occurs greatest
    have seen := (rightmost p ((within occurs).mpr upTo) occurs fun q upTo' less occurs' =>
      greatest q ((within occurs').mp upTo') less occurs').2
    rw [start] at seen
    exact seen

/-- The limit is negative where it overflows, so that nothing is searched. -/
theorem lastIndexOf_iff_overflow {cs needle : List Char} (nonempty : needle ≠ [])
    {startIndex : Option Int} (natural : ∀ i, startIndex = some i → 0 ≤ i) {result : Int}
    (overflow : target.add (lastStartOf (encode cs) startIndex) needle.length ≠
      lastStartOf (encode cs) startIndex + needle.length)
    (last : LastRestart (codes needle) [] (isEof target) result) :
    LastIndexOfSpec cs needle startIndex result ↔ LastIndexSeen target cs needle startIndex := by
  have nonempty' : codes needle ≠ [] := mt List.map_eq_nil_iff.mp nonempty
  have absent : result = -1 := by
    obtain ⟨latest, rfl, k, -, upTo⟩ := last
    cases latest with
    | none => rfl
    | some r =>
      obtain ⟨i, -, -, found, -⟩ := upTo
      exact absurd found (not_occurs nonempty' (Nat.zero_le r))
  subst absent
  constructor
  · rintro (⟨-, none_⟩ | ⟨p, same, -⟩)
    · exact ⟨fun i same negative => absurd (natural i same) (by omega),
        fun p upTo occurs => absurd occurs (none_ p upTo)⟩
    · omega
  · rintro ⟨-, rightmost⟩
    refine .inl ⟨rfl, fun q upTo occurs => ?_⟩
    have within := (within_iff nonempty natural occurs).mp upTo
    obtain ⟨p, within', -, occurs', greatest⟩ := exists_rightmost within occurs
    refine overflow (rightmost p ((within_iff nonempty natural occurs').mpr within') occurs'
      fun q upTo' less occurs'' => ?_).1
    exact greatest q ((within_iff nonempty natural occurs'').mp upTo') less occurs''

/-- A negative start counts as 0. -/
theorem lastIndexOf_iff_negative {cs needle : List Char} (nonempty : needle ≠ []) {i : Int}
    (negative : i < 0) {result : Int}
    (last : LastRestart (codes needle) (front cs (0 + needle.length : Nat)) (isEof target)
      result) :
    LastIndexOfSpec cs needle (some i) result ↔ LastIndexSeen target cs needle (some i) := by
  have found := (lastRestart_iff target nonempty last).mpr
    (fun p within _ _ => ⟨0, (Nat.le_zero.mp within).symm⟩)
  have outside (p : Nat) (within : ∀ i', some i = some i' → (p : Int) ≤ i') : False := by
    have := within i rfl
    omega
  constructor
  · rintro (⟨same, -⟩ | ⟨p, -, within, -⟩)
    · refine ⟨fun _ _ _ occurs => ?_, fun p within => (outside p within).elim⟩
      obtain ⟨-, none_⟩ | ⟨p, same', -⟩ := found
      · exact none_ 0 (Nat.le_refl 0) occurs
      · omega
    · exact (outside p within).elim
  · rintro ⟨none_, -⟩
    obtain ⟨same, -⟩ | ⟨p, -, within, occurs, -⟩ := found
    · exact .inl ⟨same, fun p within => (outside p within).elim⟩
    · obtain rfl := Nat.le_zero.mp within
      exact absurd occurs (none_ i rfl negative)

theorem lastIndexOf_iff {cs needle : List Char} (nonempty : needle ≠ [])
    (short : (encode cs).length < 2147483648) (short' : needle.length < 2147483648)
    {startIndex : Option Int} (range : ∀ i, startIndex = some i → i < 2147483648) {result : Int}
    (last : LastRestart (codes needle)
      (front cs (target.add (lastStartOf (encode cs) startIndex) needle.length)) (isEof target)
      result) :
    LastIndexOfSpec cs needle startIndex result ↔ LastIndexSeen target cs needle startIndex := by
  by_cases negative : ∃ i, startIndex = some i ∧ i < 0
  · obtain ⟨i, rfl, negative⟩ := negative
    have start : lastStartOf (encode cs) (some i) = 0 := if_pos negative
    rw [start, add_eq target (by omega) (by omega)] at last
    exact lastIndexOf_iff_negative target nonempty negative last
  have natural (i : Int) (same : startIndex = some i) : 0 ≤ i := by
    by_contra below
    exact negative ⟨i, same, Int.not_le.mp below⟩
  obtain ⟨limit, start, upper⟩ :
      ∃ limit : Nat, lastStartOf (encode cs) startIndex = limit ∧ limit < 2147483648 := by
    cases startIndex with
    | none => exact ⟨_, rfl, short⟩
    | some i =>
      have natural := natural i rfl
      have range := range i rfl
      refine ⟨i.toNat, ?_, by omega⟩
      unfold lastStartOf
      dsimp only
      rw [if_neg (by omega)]
      omega
  rw [start] at last
  by_cases exact_ : target.add limit needle.length = limit + needle.length
  · rw [exact_] at last
    exact lastIndexOf_iff_natural target nonempty natural start exact_ last
  · have wrapped : target.add limit needle.length = limit + needle.length - 4294967296 := by
      unfold Target.add at exact_ ⊢
      split
      · rename_i wraps
        rw [if_pos wraps, Int.bmod_def] at exact_
        rw [Int.bmod_def]
        omega
      · rename_i exactly
        rw [if_neg exactly] at exact_
        exact absurd rfl exact_
    have nothing : front cs (target.add limit needle.length) = [] := by
      unfold front
      rw [wrapped, Int.toNat_of_nonpos (by omega), List.take_zero]
    rw [nothing] at last
    rw [← start] at exact_
    exact lastIndexOf_iff_overflow target nonempty natural exact_ last

theorem unicode_strings_iff {cs : List Char} (short : (encode cs).length < 2147483648) :
    get_length target (encode cs) = some cs.length ∧
    (∀ index, charAt target (encode cs) index =
      some (if index < 0 then [] else encode (cs[index.toNat]?).toList)) ∧
    (∀ index, charCodeAt target (encode cs) index =
      some (if index < 0 then none else cs[index.toNat]?.map fun c => (c.toNat : Int))) ∧
    (∀ pos len, -2147483648 ≤ pos → (∀ l, len = some l → 0 ≤ l) →
      substr target (encode cs) pos len = some (encode (substrSpec cs pos len))) ∧
    (∀ startIndex endIndex, substring target (encode cs) startIndex endIndex =
      some (encode (substringSpec cs startIndex endIndex))) ∧
    (∀ needle startIndex, needle ≠ [] → (∀ i, startIndex = some i → -2147483648 ≤ i) →
      ∃ fuel r, indexOf fuel target (encode cs) (encode needle) startIndex = some r ∧
        (IndexOfSpec cs needle (startSpec cs.length startIndex) r ↔
          IndexSeen target cs needle (startSpec cs.length startIndex))) ∧
    ∀ needle startIndex, needle ≠ [] → needle.length < 2147483648 →
      (∀ i, startIndex = some i → i < 2147483648) →
      ∃ fuel r, lastIndexOf fuel target (encode cs) (encode needle) startIndex = some r ∧
        (LastIndexOfSpec cs needle startIndex r ↔ LastIndexSeen target cs needle startIndex) := by
  have short' : cs.length < 2147483648 := Nat.lt_of_le_of_lt (length_le_encode cs) short
  refine ⟨get_length_encode target cs, charAt_encode target cs, charCodeAt_encode target cs,
    fun pos len range => substr_encode target short' range, substring_encode target cs, ?_, ?_⟩
  · intro needle startIndex nonempty range
    obtain ⟨fuel, r, run, first⟩ := indexOf_encode target nonempty short' range
    exact ⟨fuel, r, run, indexOf_iff target nonempty first⟩
  · intro needle startIndex nonempty small range
    obtain ⟨fuel, r, run, last⟩ := lastIndexOf_encode target nonempty startIndex
    exact ⟨fuel, r, run, lastIndexOf_iff target nonempty short small range last⟩

/-- A target without an end character whose `Int` wraps. -/
def java : Target := ⟨-1, by decide, true⟩

def aaab : List Char := ['a', 'a', 'a', 'b']

def supplementary : List Char := ['a', '😂', 'a', 'b']

/-- A search behind the first code point of a string with a surrogate pair. -/
theorem supplementary_is_searched :
    ∃ fuel r, indexOf fuel java (encode supplementary) (encode ['a', 'b']) (some 1) = some r ∧
      (IndexOfSpec supplementary ['a', 'b'] 1 r ↔ IndexSeen java supplementary ['a', 'b'] 1) :=
  (@unicode_strings_iff java supplementary (by decide)).2.2.2.2.2.1 ['a', 'b'] (some 1)
    (by decide) (by simp)

/-- The second `a` of a partial occurrence begins an occurrence. -/
theorem overlapping_is_missed :
    indexOf 20 java (encode aaab) (encode ['a', 'a', 'b']) none = some (-1) ∧
    lastIndexOf 20 java (encode ['a', 'a', 'a']) (encode ['a', 'a']) none = some 0 ∧
    ¬ (∀ (cs needle : List Char) (fuel : Nat) (r : Int), needle ≠ [] →
      indexOf fuel java (encode cs) (encode needle) none = some r → IndexOfSpec cs needle 0 r) := by
  refine ⟨by decide, by decide, fun claim => ?_⟩
  obtain ⟨-, none_⟩ | ⟨p, same, -⟩ :=
    claim aaab ['a', 'a', 'b'] 20 (-1) (by decide) (by decide)
  · exact none_ 1 (by decide) ⟨[], rfl⟩
  · omega

end Haxe.Guarantees.UnicodeStrings
