import Haxe.Source.Macro.FindSubstring

/-!
# Search functions

What `indexOf`, `lastIndexOf`, `split` and `replace` give for texts, beside what they are to
give. A search that slips in front of an occurrence reports an index too large by the number of
slips, or misses the occurrence when that index leaves no room for the needle.
-/

namespace Haxe.Source.StdString

open UTF8 EvalString
open Theory Occurrence

variable {hay needle : List CodePoint} {this str : VString}

theorem slength_eq_zero (strIs : Represents str needle) : str.slength = 0 ↔ needle = [] := by
  rw [strIs.length, ← List.length_eq_zero_iff]
  omega

/-! ## indexOf -/

/-- The character at which the search starts; a negative index counts from the end. -/
def indexStart (hay : List CodePoint) (startIndex : Option Int) : Nat :=
  let i := startIndex.getD 0
  (if i < 0 then max (hay.length + i) 0 else i).toNat

/-- The first occurrence at or behind the start. -/
def expectedIndexOf (needle hay : List CodePoint) (startIndex : Option Int) : Int :=
  if needle = [] then max 0 (min (startIndex.getD 0) hay.length)
  else (first needle (hay.drop (indexStart hay startIndex))).elim (-1) fun q =>
    indexStart hay startIndex + q

/-- No slip between a character and the first occurrence behind it. -/
def Unslipped (needle hay : List CodePoint) (start : Nat) : Prop :=
  ∀ q, first needle (hay.drop start) = some q → drift needle (hay.drop start) q = 0

theorem indexOf_eq (thisIs : Represents this hay) (strIs : Represents str needle)
    (startIndex : Option Int) :
    (indexOf this str startIndex).1 = .ok (if needle = []
      then max 0 (min (startIndex.getD 0) hay.length)
      else (searched needle hay (indexStart hay startIndex) (indexStart hay startIndex)).elim (-1)
        fun r => r.1) := by
  have empty := slength_eq_zero strIs
  unfold indexOf
  dsimp only
  by_cases none : needle = []
  · rw [if_pos (empty.mpr none), if_pos none, thisIs.length]
  · rw [if_neg (mt empty.mp none), if_neg none]
    by_cases beyond : startIndex.getD 0 ≥ this.slength
    · have start : hay.length ≤ indexStart hay startIndex := by
        rw [thisIs.length] at beyond
        unfold indexStart
        dsimp only
        split <;> omega
      rw [if_pos beyond, searched_end none start]
      rfl
    · rw [if_neg beyond]
      have start : (if startIndex.getD 0 < 0 then max (this.slength + startIndex.getD 0) 0
          else startIndex.getD 0) = (indexStart hay startIndex : Nat) := by
        unfold indexStart
        dsimp only
        rw [thisIs.length]
        split <;> omega
      have upto : indexStart hay startIndex ≤ hay.length := by
        rw [thisIs.length] at beyond
        unfold indexStart
        dsimp only
        split <;> omega
      rw [start]
      obtain ⟨got, -⟩ := getOffset_ok thisIs upto
      rw [got]
      simp only [bind, Except.bind]
      rw [findSubstring_forward thisIs strIs none (Nat.le_refl _) upto]
      cases searched needle hay (indexStart hay startIndex) (indexStart hay startIndex) <;> rfl

/-- The index is right exactly if the search does not slip. -/
theorem indexOf_iff (thisIs : Represents this hay) (strIs : Represents str needle)
    (startIndex : Option Int) :
    (indexOf this str startIndex).1 = .ok (expectedIndexOf needle hay startIndex) ↔
      Unslipped needle hay (indexStart hay startIndex) := by
  rw [indexOf_eq thisIs strIs, Except.ok.injEq]
  unfold expectedIndexOf Unslipped searched
  generalize indexStart hay startIndex = start
  by_cases none : needle = []
  · subst none
    rw [if_pos rfl, if_pos rfl]
    refine iff_of_true rfl fun q found => ?_
    have here : first [] (hay.drop start) = some 0 := by
      cases hay.drop start with
      | nil => rfl
      | cons h rest => rw [first, if_pos List.nil_prefix]
    obtain rfl := Option.some.inj (here.symm.trans found)
    simp [drift]
  · rw [if_neg none, if_neg none]
    cases found : first needle (hay.drop start) with
    | none => simp
    | some q =>
      have inside := (first_bound found).resolve_right none
      rw [List.length_drop] at inside
      have positive := List.length_pos_iff.mpr none
      simp only [Option.bind_some, Option.some.injEq, forall_eq']
      rw [Option.elim_some]
      split
      · rw [Option.elim_some]
        omega
      · rw [Option.elim_none]
        omega

/-! ## lastIndexOf -/

/-- The last occurrence at or in front of the start. -/
def expectedLastIndexOf (needle hay : List CodePoint) (startIndex : Option Int) : Int :=
  if needle = [] then max 0 (min (startIndex.getD hay.length) hay.length)
  else if startIndex.getD hay.length < 0 then -1
  else (lastUpTo needle hay (startIndex.getD hay.length).toNat).elim (-1) fun q => q

/-- The start does not make the search begin in front of the string; or it does, right in front
of a first character whose offset is cached. -/
def StartsInside (needle hay : List CodePoint) (this : VString) (startIndex : Option Int) : Prop :=
  needle.length ≤ hay.length ∨ startIndex.getD ((hay.length : Int) - needle.length) < 0 ∨
    needle.length = hay.length + 1 ∧ cachesStart this = true

theorem lastUpTo_narrow (nonempty : needle ≠ []) (narrow : hay.length < needle.length) (n : Nat) :
    lastUpTo needle hay n = none := by
  cases found : lastUpTo needle hay n with
  | none => rfl
  | some q => exact absurd (lastUpTo_eq_some found).2.1 (not_prefix_drop nonempty (by omega))

theorem lastIndexOf_inside (thisIs : Represents this hay) (strIs : Represents str needle)
    {startIndex : Option Int} (inside : StartsInside needle hay this startIndex) :
    (lastIndexOf this str startIndex).1 = .ok (expectedLastIndexOf needle hay startIndex) := by
  unfold lastIndexOf expectedLastIndexOf
  dsimp only
  by_cases empty : needle = []
  · rw [if_pos ((slength_eq_zero strIs).mpr empty), if_pos empty, thisIs.length]
  · have positive := List.length_pos_iff.mpr empty
    rw [if_neg (mt (slength_eq_zero strIs).mp empty), if_neg empty, thisIs.length, strIs.length]
    by_cases negative : startIndex.getD ((hay.length : Int) - needle.length) < 0
    · rw [if_pos negative]
      cases startIndex with
      | some i =>
        rw [Option.getD_some] at negative ⊢
        rw [if_pos negative]
        rfl
      | none =>
        rw [Option.getD_none] at negative ⊢
        rw [if_neg (by omega), lastUpTo_narrow empty (by omega)]
        rfl
    · rw [if_neg negative]
      have nonneg : ¬ startIndex.getD (hay.length : Int) < 0 := by
        cases startIndex with
        | some i => exact negative
        | none =>
          rw [Option.getD_none]
          omega
      rw [if_neg nonneg]
      by_cases room : needle.length ≤ hay.length
      · obtain ⟨p, isIndex, inside', order, last⟩ : ∃ p : Nat,
            (if startIndex.getD ((hay.length : Int) - needle.length) ≥ hay.length - needle.length
              then (hay.length : Int) - needle.length
              else startIndex.getD ((hay.length : Int) - needle.length)) = p ∧
            p + needle.length ≤ hay.length ∧ p ≤ (startIndex.getD (hay.length : Int)).toNat ∧
            (p = (startIndex.getD (hay.length : Int)).toNat ∨ p + needle.length = hay.length) := by
          cases startIndex with
          | some i =>
            simp only [Option.getD_some] at negative ⊢
            split
            · exact ⟨hay.length - needle.length, by omega, by omega, by omega, by omega⟩
            · exact ⟨i.toNat, by omega, by omega, by omega, by omega⟩
          | none =>
            simp only [Option.getD_none]
            rw [if_pos (Int.le_refl _)]
            exact ⟨hay.length - needle.length, by omega, by omega, by omega, by omega⟩
        have same : lastUpTo needle hay (startIndex.getD (hay.length : Int)).toNat =
            lastUpTo needle hay p := by
          refine lastUpTo_eq_of_le order fun k above upto => ?_
          exact not_prefix_drop empty (by omega)
        obtain ⟨got, -⟩ := getOffset_ok thisIs (c := p) (by omega)
        have long := length_le_encode hay
        have search : findSubstring this str true p (offset hay p) = _ :=
          reverseLoop_eq thisIs strIs empty inside' (by rw [thisIs.bytes]; omega)
        rw [isIndex, same, got]
        simp only [bind, Except.bind]
        rw [search]
        cases lastUpTo needle hay p <;> rfl
      · -- the needle is longer by one character, and the byte in front of the string is found
        rcases inside with fits | back | ⟨length, front⟩
        · exact absurd fits room
        · exact absurd back negative
        · have index : (hay.length : Int) - needle.length = -1 := by omega
          have stop : findSubstring this str true (-1) (-1) = .error .notFound := by
            show reverseLoop this str (this.sstring.length + 2) (-1) (-1) = _
            rw [reverseLoop, if_pos (Or.inr (by omega))]
          rw [lastUpTo_narrow empty (by omega), index, if_pos (by rw [← index]; omega),
            getOffset_negative thisIs (by omega), if_pos ⟨rfl, front⟩]
          simp only [bind, Except.bind]
          rw [stop]
          rfl

theorem lastIndexOf_outside (thisIs : Represents this hay) (strIs : Represents str needle)
    {startIndex : Option Int} (outside : ¬ StartsInside needle hay this startIndex) :
    (lastIndexOf this str startIndex).1 = .error .invalidArgument := by
  obtain ⟨long, rest⟩ := not_or.mp outside
  obtain ⟨nonneg, away⟩ := not_or.mp rest
  have none : needle ≠ [] := by
    rintro rfl
    exact long (Nat.zero_le _)
  have negative : (hay.length : Int) - needle.length < 0 := by omega
  have notFront : ¬ ((hay.length : Int) - needle.length = -1 ∧ cachesStart this = true) :=
    fun both => away ⟨by omega, both.2⟩
  unfold lastIndexOf
  dsimp only
  rw [if_neg (mt (slength_eq_zero strIs).mp none), thisIs.length, strIs.length, if_neg nonneg,
    if_pos (by omega), getOffset_negative thisIs negative, if_neg notFront]
  rfl

theorem lastIndexOf_iff (thisIs : Represents this hay) (strIs : Represents str needle)
    (startIndex : Option Int) :
    (lastIndexOf this str startIndex).1 = .ok (expectedLastIndexOf needle hay startIndex) ↔
      StartsInside needle hay this startIndex := by
  refine ⟨fun right => ?_, lastIndexOf_inside thisIs strIs⟩
  by_contra outside
  rw [lastIndexOf_outside thisIs strIs outside] at right
  cases right

/-! ## split -/

theorem stringSub_offset {p p' : Nat} (order : p ≤ p') :
    stringSub (encode hay) (offset hay p) ((offset hay p' : Int) - offset hay p) =
      .ok (encode ((hay.drop p).take (p' - p))) := by
  have mono : offset hay p ≤ offset hay p' := offset_mono order
  have upto := offset_le_length hay p'
  obtain ⟨n, rfl⟩ := Nat.exists_eq_add_of_le order
  rw [offset_add] at mono upto ⊢
  unfold stringSub
  rw [if_pos (by omega), Int.toNat_natCast, encode_drop]
  rw [show (((offset hay p + offset (hay.drop p) n : Nat) : Int) - offset hay p).toNat =
    offset (hay.drop p) n by omega, encode_take, Nat.add_sub_cancel_left]

theorem encodeRange_offset (thisIs : Represents this hay) {p p' : Nat} (order : p ≤ p')
    (clength : Int) :
    encodeRange this (offset hay p) ((offset hay p' : Int) - offset hay p) clength =
      .ok (createWithLength (encode ((hay.drop p).take (p' - p))) clength) := by
  unfold encodeRange
  rw [thisIs.bytes, stringSub_offset order]
  rfl

/-- What a search finds lies ahead, and its index leaves room for the needle. -/
theorem searched_some {p c i p' : Nat} (ahead : p ≤ c)
    (found : searched needle hay p c = some (i, p')) :
    ∃ q, first needle (hay.drop p) = some q ∧ p' = p + q ∧
      i = c + q + drift needle (hay.drop p) q ∧ i + needle.length ≤ hay.length ∧ p' ≤ i ∧
      p' + needle.length ≤ hay.length := by
  obtain ⟨q, isFirst, index⟩ := Option.bind_eq_some_iff.mp found
  dsimp only at index
  split at index
  · rename_i room
    obtain ⟨rfl, rfl⟩ := Prod.mk.inj (Option.some.inj index)
    exact ⟨q, isFirst, rfl, rfl, room, by omega, by omega⟩
  · cases index

theorem splitLoop_found {i b nxt c b₀ : Int} {fuel : Nat} {piece : VString} {l : List VString}
    (found : findSubstring this str false c b₀ = .ok (i, b, nxt))
    (cut : encodeRange this b₀ (b - b₀) (i - c) = .ok piece)
    (rest : splitLoop this str fuel (i + str.slength) nxt = .ok l) :
    splitLoop this str (fuel + 1) c b₀ = .ok (piece :: l) := by
  rw [splitLoop, found]
  simp only [bind, Except.bind, cut, rest]
  rfl

theorem splitLoop_last (thisIs : Represents this hay) {p c fuel : Nat} (upto : p ≤ hay.length)
    (absent : findSubstring this str false c (offset hay p) = .error .notFound) :
    splitLoop this str (fuel + 1) c (offset hay p) =
      .ok [createWithLength (encode (hay.drop p)) (hay.length - c)] := by
  have cut := encodeRange_offset thisIs upto ((hay.length : Int) - c)
  rw [offset_length, List.take_of_length_le (by simp), ← thisIs.bytes] at cut
  rw [splitLoop, absent]
  simp only [bind, Except.bind, thisIs.length, cut]
  rfl

/-- The loop ends, whatever the index. -/
theorem splitLoop_total (thisIs : Represents this hay) (strIs : Represents str needle)
    (nonempty : needle ≠ []) {p c fuel : Nat} (ahead : p ≤ c) (upto : p ≤ hay.length)
    (enough : hay.length < fuel + p) :
    ∃ l, splitLoop this str fuel c (offset hay p) = .ok l := by
  induction fuel generalizing p c with
  | zero => omega
  | succ fuel ih =>
    have positive := List.length_pos_iff.mpr nonempty
    have search := findSubstring_forward thisIs strIs nonempty ahead upto
    cases found : searched needle hay p c with
    | none =>
      rw [found] at search
      exact ⟨_, splitLoop_last thisIs upto search⟩
    | some r =>
      obtain ⟨i, p'⟩ := r
      obtain ⟨q, -, place, -, room, behind, inside⟩ := searched_some ahead found
      rw [found] at search
      obtain ⟨l, rest⟩ := @ih (p' + needle.length) (i + needle.length) (by omega) inside (by omega)
      rw [Int.natCast_add, ← strIs.length] at rest
      exact ⟨_, splitLoop_found search (encodeRange_offset thisIs (by omega) _) rest⟩

/-- No slip in a gap in front of an occurrence. -/
@[grind =] def SplitsUnslipped (needle : List CodePoint) (hay : List CodePoint) : Prop :=
  if _nonempty : needle = [] then True
  else
    match _found : first needle hay with
    | none => True
    | some q =>
      drift needle hay q = 0 ∧ SplitsUnslipped needle (hay.drop (q + needle.length))
termination_by hay.length
decreasing_by exact length_behind _nonempty _found

theorem splitsUnslipped_none (nonempty : needle ≠ []) (absent : first needle hay = none) :
    SplitsUnslipped needle hay := by
  rw [SplitsUnslipped, dif_neg nonempty]
  split
  · trivial
  · rename_i found
    rw [absent] at found
    cases found

theorem splitsUnslipped_some (nonempty : needle ≠ []) {q : Nat}
    (found : first needle hay = some q) :
    SplitsUnslipped needle hay ↔
      drift needle hay q = 0 ∧ SplitsUnslipped needle (hay.drop (q + needle.length)) := by
  rw [SplitsUnslipped, dif_neg nonempty]
  split
  · rename_i absent
    rw [absent] at found
    cases found
  · rename_i found'
    obtain rfl := Option.some.inj (found.symm.trans found')
    rfl

/-- From an exact index the pieces are right exactly if no gap in front of an occurrence slips. -/
theorem splitLoop_iff (thisIs : Represents this hay) (strIs : Represents str needle)
    (nonempty : needle ≠ []) {p fuel : Nat} (upto : p ≤ hay.length)
    (enough : hay.length < fuel + p) :
    splitLoop this str fuel p (offset hay p) = .ok ((pieces needle (hay.drop p)).map ofPoints) ↔
      SplitsUnslipped needle (hay.drop p) := by
  induction fuel generalizing p with
  | zero => omega
  | succ fuel ih =>
    have positive := List.length_pos_iff.mpr nonempty
    have search := findSubstring_forward thisIs strIs nonempty (Nat.le_refl p) upto
    cases isFirst : first needle (hay.drop p) with
    | none =>
      have found : searched needle hay p p = none := by
        unfold searched
        rw [isFirst]
        rfl
      rw [found] at search
      rw [splitLoop_last thisIs upto search, pieces_none nonempty isFirst]
      refine iff_of_true ?_ (splitsUnslipped_none nonempty isFirst)
      unfold ofPoints
      simp only [List.map_cons, List.map_nil, List.length_drop]
      congr 3
      omega
    | some q =>
      have inside := (first_bound isFirst).resolve_right nonempty
      rw [List.length_drop] at inside
      rw [pieces_some nonempty isFirst, splitsUnslipped_some nonempty isFirst, List.map_cons]
      by_cases room : p + q + drift needle (hay.drop p) q + needle.length ≤ hay.length
      · have found : searched needle hay p p =
            some (p + q + drift needle (hay.drop p) q, p + q) := by
          unfold searched
          rw [isFirst, Option.bind_some]
          exact if_pos room
        rw [found] at search
        have cut := encodeRange_offset thisIs (Nat.le_add_right p q)
          (((p + q + drift needle (hay.drop p) q : Nat) : Int) - p)
        obtain ⟨l, total⟩ := @splitLoop_total hay needle this str thisIs strIs nonempty
          (p + q + needle.length) (p + q + drift needle (hay.drop p) q + needle.length) fuel
          (by omega) (by omega) (by omega)
        have total' := total
        rw [Int.natCast_add, ← strIs.length] at total'
        rw [splitLoop_found search cut total', Except.ok.injEq, List.cons.injEq,
          Nat.add_sub_cancel_left]
        by_cases exact' : drift needle (hay.drop p) q = 0
        · rw [exact'] at total
          have rest := @ih (p + q + needle.length) (by omega) (by omega)
          rw [Nat.add_zero] at total
          rw [total, Except.ok.injEq, Nat.add_assoc p q, ← List.drop_drop] at rest
          rw [exact', rest, Nat.add_zero]
          have same : createWithLength (encode ((hay.drop p).take q)) (((p + q : Nat) : Int) - p) =
              ofPoints ((hay.drop p).take q) := by
            unfold ofPoints
            rw [List.length_take, List.length_drop]
            congr 1
            omega
          exact ⟨fun both => ⟨rfl, both.2⟩, fun both => ⟨same, both.2⟩⟩
        · refine iff_of_false (fun both => ?_) (fun both => exact' both.1)
          have lengths := congrArg VString.slength both.1
          simp only [createWithLength, ofPoints, List.length_take, List.length_drop] at lengths
          omega
      · have found : searched needle hay p p = none := by
          unfold searched
          rw [isFirst, Option.bind_some]
          exact if_neg room
        rw [found] at search
        rw [splitLoop_last thisIs upto search, Except.ok.injEq, List.cons.injEq]
        refine iff_of_false (fun both => ?_) (fun both => room (by omega))
        obtain ⟨piece, rest, behind⟩ := List.exists_cons_of_ne_nil
          (pieces_ne_nil nonempty ((hay.drop p).drop (q + needle.length)))
        rw [behind] at both
        exact absurd both.2 (by simp)

theorem split_iff (thisIs : Represents this hay) (strIs : Represents str needle) :
    split this str = .ok ((pieces needle hay).map ofPoints) ↔ SplitsUnslipped needle hay := by
  have long := length_le_encode hay
  unfold split
  by_cases empty : needle = []
  · subst empty
    have bytes : str.sstring.length = 0 := by
      rw [strIs.bytes]
      rfl
    rw [if_pos bytes, thisIs.bytes, iter_encode]
    refine iff_of_true ?_ ?_
    · unfold pieces
      rw [dif_pos rfl, List.map_map]
      simp only [bind, Except.bind, pure, Except.pure]
      congr 1
      apply List.map_congr_left
      intro uc _
      simp [ofPoints]
    · rw [SplitsUnslipped, dif_pos rfl]
      trivial
  · have bytes : ¬ str.sstring.length = 0 := by
      rw [strIs.bytes, List.length_eq_zero_iff, encode_eq_nil]
      exact empty
    rw [if_neg bytes]
    by_cases narrow : str.sstring.length > this.sstring.length
    · have absent : first needle hay = none := by
        cases found : first needle hay with
        | none => rfl
        | some q =>
          have occurs := offset_occurrence (first_eq_some found).1
          have upto := offset_le_length hay (q + needle.length)
          rw [strIs.bytes, thisIs.bytes] at narrow
          omega
      have whole := encodeRange_offset thisIs (Nat.zero_le hay.length) this.slength
      rw [offset_length, offset_zero, List.drop_zero, Nat.sub_zero, List.take_length,
        ← thisIs.bytes, Int.natCast_zero, Int.sub_zero] at whole
      rw [if_pos narrow, whole, pieces_none empty absent]
      refine iff_of_true ?_ (splitsUnslipped_none empty absent)
      simp only [bind, Except.bind, pure, Except.pure, thisIs.length, thisIs.bytes]
      rfl
    · rw [if_neg narrow]
      have loop := @splitLoop_iff hay needle this str thisIs strIs empty 0
        (this.sstring.length + 1) (Nat.zero_le _) (by rw [thisIs.bytes]; omega)
      rw [List.drop_zero] at loop
      exact loop

theorem split_total (thisIs : Represents this hay) (strIs : Represents str needle) :
    ∃ l, split this str = .ok l := by
  have long := length_le_encode hay
  by_cases right : SplitsUnslipped needle hay
  · exact ⟨_, (split_iff thisIs strIs).mpr right⟩
  · have empty : needle ≠ [] := by
      rintro rfl
      apply right
      rw [SplitsUnslipped, dif_pos rfl]
      trivial
    have bytes : ¬ str.sstring.length = 0 := by
      rw [strIs.bytes, List.length_eq_zero_iff, encode_eq_nil]
      exact empty
    unfold split
    rw [if_neg bytes]
    split
    · have whole := encodeRange_offset thisIs (Nat.zero_le hay.length) this.slength
      rw [offset_length, offset_zero, ← thisIs.bytes, Int.natCast_zero, Int.sub_zero] at whole
      rw [whole]
      exact ⟨_, rfl⟩
    · exact splitLoop_total thisIs strIs empty (Nat.le_refl 0) (Nat.zero_le _)
        (by rw [thisIs.bytes]; omega)

/-! ## replace -/

/-- The search finds every occurrence although its index may be too large: the index leaves room
for the needle. `room` is the number of characters of the whole text, and `c` the index at which
the rest is searched. -/
@[grind =]
def FindsAll (room : Nat) (needle : List CodePoint) (c : Nat) (hay : List CodePoint) : Prop :=
  if _nonempty : needle = [] then True
  else
    match _found : first needle hay with
    | none => True
    | some q =>
      let index := c + q + drift needle hay q
      index + needle.length ≤ room ∧
        FindsAll room needle (index + needle.length) (hay.drop (q + needle.length))
termination_by hay.length
decreasing_by exact length_behind _nonempty _found

theorem findsAll_none {room c : Nat} (nonempty : needle ≠ []) (absent : first needle hay = none) :
    FindsAll room needle c hay := by
  rw [FindsAll, dif_neg nonempty]
  split
  · trivial
  · rename_i found
    rw [absent] at found
    cases found

theorem findsAll_some {room c : Nat} (nonempty : needle ≠ []) {q : Nat}
    (found : first needle hay = some q) :
    FindsAll room needle c hay ↔
      c + q + drift needle hay q + needle.length ≤ room ∧
        FindsAll room needle (c + q + drift needle hay q + needle.length)
          (hay.drop (q + needle.length)) := by
  rw [FindsAll, dif_neg nonempty]
  split
  · rename_i absent
    rw [absent] at found
    cases found
  · rename_i found'
    obtain rfl := Option.some.inj (found.symm.trans found')
    rfl

theorem searched_of_first {p c q : Nat} (isFirst : first needle (hay.drop p) = some q) :
    searched needle hay p c =
      if c + q + drift needle (hay.drop p) q + needle.length ≤ hay.length
      then some (c + q + drift needle (hay.drop p) q, p + q) else none := by
  unfold searched
  rw [isFirst, Option.bind_some]

variable {by' : VString} {byPoints : List CodePoint}

theorem replaceLoop_found {i b nxt c b₀ n : Int} {fuel : Nat} {kept rest : List Nat}
    (found : findSubstring this str false c b₀ = .ok (i, b, nxt))
    (cut : stringSub this.sstring b₀ (b - b₀) = .ok kept)
    (others : replaceLoop this str by' fuel (i + str.slength) nxt = .ok (rest, n)) :
    replaceLoop this str by' (fuel + 1) c b₀ = .ok (kept ++ by'.sstring ++ rest, n + 1) := by
  rw [replaceLoop, found]
  simp only [bind, Except.bind, cut, others]
  rfl

theorem replaceLoop_last (thisIs : Represents this hay) {p c fuel : Nat} (upto : p ≤ hay.length)
    (absent : findSubstring this str false c (offset hay p) = .error .notFound) :
    replaceLoop this str by' (fuel + 1) c (offset hay p) = .ok (encode (hay.drop p), 0) := by
  have cut := @stringSub_offset hay p hay.length upto
  rw [offset_length, List.take_of_length_le (by simp), ← thisIs.bytes] at cut
  rw [replaceLoop, absent]
  simp only [bind, Except.bind, cut]
  rfl

/-- What the loop leaves: a text whose length fits the number of replaced pieces, and which is
the right one exactly if every occurrence is found or nothing is to be changed. -/
theorem replaceLoop_spec (thisIs : Represents this hay) (strIs : Represents str needle)
    (byIs : Represents by' byPoints) (nonempty : needle ≠ []) {p c fuel : Nat} (ahead : p ≤ c)
    (upto : p ≤ hay.length) (enough : hay.length < fuel + p) :
    ∃ x n, replaceLoop this str by' fuel c (offset hay p) = .ok (encode x, n) ∧
      (x.length : Int) = (hay.drop p).length + byPoints.length * n - needle.length * n ∧
      (x = replaced needle byPoints (hay.drop p) ↔
        byPoints = needle ∨ FindsAll hay.length needle c (hay.drop p)) := by
  induction fuel generalizing p c with
  | zero => omega
  | succ fuel ih =>
    have positive := List.length_pos_iff.mpr nonempty
    have search := findSubstring_forward thisIs strIs nonempty ahead upto
    cases isFirst : first needle (hay.drop p) with
    | none =>
      have found : searched needle hay p c = none := by
        unfold searched
        rw [isFirst]
        rfl
      rw [found] at search
      refine ⟨hay.drop p, 0, replaceLoop_last thisIs upto search, by simp, ?_⟩
      rw [replaced_none byPoints nonempty isFirst]
      exact iff_of_true rfl (Or.inr (findsAll_none nonempty isFirst))
    | some q =>
      have inside := (first_bound isFirst).resolve_right nonempty
      rw [List.length_drop] at inside
      rw [searched_of_first isFirst] at search
      by_cases room : c + q + drift needle (hay.drop p) q + needle.length ≤ hay.length
      · rw [if_pos room] at search
        obtain ⟨x, n, others, length, right⟩ := @ih (p + q + needle.length)
          (c + q + drift needle (hay.drop p) q + needle.length) (by omega) (by omega) (by omega)
        have cut := @stringSub_offset hay p (p + q) (Nat.le_add_right p q)
        rw [← thisIs.bytes, Nat.add_sub_cancel_left] at cut
        rw [Int.natCast_add, ← strIs.length] at others
        have behind : hay.drop (p + q + needle.length) = (hay.drop p).drop (q + needle.length) := by
          rw [List.drop_drop, Nat.add_assoc]
        refine ⟨(hay.drop p).take q ++ byPoints ++ x, n + 1, ?_, ?_, ?_⟩
        · rw [replaceLoop_found search cut others, byIs.bytes]
          simp
        · rw [behind, List.length_drop] at length
          simp only [List.length_append, List.length_take, List.length_drop] at length ⊢
          push_cast
          rw [length, Int.mul_add, Int.mul_add]
          omega
        · rw [replaced_some byPoints nonempty isFirst, findsAll_some nonempty isFirst,
            List.append_cancel_left_eq, ← behind, right]
          simp only [room, true_and]
      · rw [if_neg room] at search
        refine ⟨hay.drop p, 0, replaceLoop_last thisIs upto search, by simp, ?_⟩
        rw [findsAll_some nonempty isFirst]
        simp only [room, false_and, or_false]
        constructor
        · intro same
          by_contra other
          exact replaced_ne nonempty isFirst other same.symm
        · intro same
          rw [same, replaced_self nonempty]

/-- One character of `replace` of the empty string. -/
def interleaveStep (s by' : VString) (state : List Nat × Int) (uc : CodePoint) : List Nat × Int :=
  if state.2 ≠ s.slength - 1 then (state.1 ++ addUchar uc ++ by'.sstring, state.2 + 1)
  else (state.1 ++ addUchar uc, state.2)

theorem interleave_eq (s by' : VString) (points : List CodePoint) :
    interleave s by' points = points.foldl (interleaveStep s by') ([], 0) := rfl

/-- The characters that are still to come, with `done` of them passed. -/
theorem interleave_foldl (thisIs : Represents this hay) (byIs : Represents by' byPoints)
    (buf : List Nat) {passed : Nat} {rest : List CodePoint}
    (all : passed + rest.length = hay.length) :
    rest.foldl (interleaveStep this by') (buf, (passed : Int)) =
      (buf ++ encode (byPoints.intercalate (rest.map fun x => [x])),
        ((passed + (rest.length - 1) : Nat) : Int)) := by
  induction rest generalizing buf passed with
  | nil => simp [List.intercalate]
  | cons u rest ih =>
    rw [List.length_cons] at all
    rw [List.foldl_cons]
    cases rest with
    | nil =>
      have last : interleaveStep this by' (buf, (passed : Int)) u =
          (buf ++ addUchar u, (passed : Int)) := by
        rw [List.length_nil] at all
        unfold interleaveStep
        rw [thisIs.length, if_neg (by simp; omega)]
      rw [last]
      simp [List.intercalate]
    | cons v rest =>
      have more : interleaveStep this by' (buf, (passed : Int)) u =
          (buf ++ addUchar u ++ by'.sstring, ((passed + 1 : Nat) : Int)) := by
        rw [List.length_cons] at all
        unfold interleaveStep
        rw [thisIs.length, if_pos (by dsimp only; omega)]
        rfl
      rw [more, ih _ (by omega), byIs.bytes]
      simp only [List.map_cons, List.intercalate, List.intersperse, List.flatten_cons,
        encode_append, encode_cons, encode_nil, List.append_nil, List.append_assoc,
        List.length_cons, Nat.add_sub_cancel]
      congr 2
      omega

theorem replaced_empty_length (points : List CodePoint) :
    ((byPoints.intercalate (points.map fun x => [x])).length : Int) =
      points.length + byPoints.length * (points.length - 1 : Nat) := by
  induction points with
  | nil => simp [List.intercalate]
  | cons u points ih =>
    cases points with
    | nil => simp [List.intercalate]
    | cons v points =>
      simp only [List.map_cons, List.intercalate, List.intersperse, List.flatten_cons,
        List.length_append, List.length_cons, List.length_nil, Nat.add_sub_cancel] at ih ⊢
      push_cast at ih ⊢
      rw [ih, Int.mul_add]
      omega

theorem intercalate_nil (points : List CodePoint) :
    ([] : List CodePoint).intercalate (points.map fun x => [x]) = points := by
  induction points with
  | nil => rfl
  | cons u points ih =>
    cases points with
    | nil => rfl
    | cons v points =>
      simp only [List.map_cons, List.intercalate, List.intersperse, List.flatten_cons,
        List.nil_append, List.singleton_append, List.cons.injEq, true_and] at ih ⊢
      exact ih

/-- Replacing is right exactly if nothing is to be changed or every occurrence is found. -/
theorem replace_iff (thisIs : Represents this hay) (strIs : Represents str needle)
    (byIs : Represents by' byPoints) :
    (∃ v, replace this str by' = .ok v ∧ Represents v (replaced needle byPoints hay)) ↔
      byPoints = needle ∨ FindsAll hay.length needle 0 hay := by
  have long := length_le_encode hay
  unfold replace
  dsimp only
  by_cases empty : needle = []
  · subst empty
    have found : FindsAll hay.length [] 0 hay := by
      rw [FindsAll, dif_pos rfl]
      trivial
    have singles : replaced [] byPoints hay = byPoints.intercalate (hay.map fun x => [x]) := by
      unfold replaced pieces
      rw [dif_pos rfl]
    refine iff_of_true ?_ (Or.inr found)
    rw [if_pos ((slength_eq_zero strIs).mpr rfl), singles]
    by_cases nothing : byPoints = []
    · refine ⟨this, by rw [if_pos ((slength_eq_zero byIs).mpr nothing)], ?_⟩
      rw [nothing, intercalate_nil]
      exact thisIs
    · rw [if_neg (mt (slength_eq_zero byIs).mp nothing), thisIs.bytes, iter_encode]
      refine ⟨_, rfl, ?_⟩
      have fold := @interleave_foldl hay this by' byPoints thisIs byIs [] 0 hay (Nat.zero_add _)
      rw [Int.natCast_zero, ← interleave_eq, List.nil_append, Nat.zero_add] at fold
      rw [fold]
      refine ⟨rfl, ?_, Nat.zero_le 2, fun p none => absurd none List.not_mem_nil⟩
      rw [replaced_empty_length]
      simp only [createWithLength, thisIs.length, byIs.length, strIs.length]
      simp
  · rw [if_neg (mt (slength_eq_zero strIs).mp empty)]
    obtain ⟨x, n, loop, length, right⟩ := @replaceLoop_spec hay needle this str by' byPoints thisIs
      strIs byIs empty 0 0 (this.sstring.length + 1) (Nat.le_refl 0) (Nat.zero_le _)
      (by rw [thisIs.bytes]; omega)
    rw [List.drop_zero] at length right
    rw [offset_zero, Int.natCast_zero] at loop
    rw [loop, ← right]
    simp only [bind, Except.bind, pure, Except.pure, Except.ok.injEq, exists_eq_left']
    constructor
    · intro represents
      exact encode_injective represents.bytes
    · intro same
      refine ⟨congrArg encode same, ?_, Nat.zero_le 2, fun p none => absurd none List.not_mem_nil⟩
      rw [← same, length]
      simp only [createWithLength, thisIs.length, byIs.length, strIs.length]

end Haxe.Source.StdString
