import Haxe.Source.Std.UnicodeString
import Haxe.Theory.GreedySearch

/-!
# The searches over the code points

`indexOf` and `lastIndexOf` compare in one pass: they see the occurrences at the restart points of
this pass.
-/

namespace Haxe.Source.UnicodeString

open Haxe.Theory.FueledLoops Haxe.Theory.Utf16 Haxe.Theory.GreedySearch

def codes (cs : List Char) : List Int := cs.map fun c => (c.toNat : Int)

theorem length_codes (cs : List Char) : (codes cs).length = cs.length := List.length_map _

variable (target : Target)

/-- What `indexOf` walks over: the code points and the end. -/
def ended (cs : List Char) : List Int := codes cs ++ [target.eof]

theorem length_ended (cs : List Char) : (ended target cs).length = cs.length + 1 := by
  rw [ended, List.length_append, length_codes]
  rfl

theorem ended_codePoint {cs : List Char} {i : Nat} (within : i ≤ cs.length) :
    (ended target cs)[i]? = some (utf16CodePointAt target (encode cs) (offset cs i)) := by
  unfold ended
  by_cases inside : i < cs.length
  · rw [List.getElem?_append_left (by rwa [length_codes]), codePointAt target inside]
    unfold codes
    rw [List.getElem?_map, List.getElem?_eq_getElem inside]
    rfl
  · obtain rfl : i = cs.length := by omega
    rw [offset_length, codePointAt_end, List.getElem?_append_right (by rw [length_codes]),
      length_codes, Nat.sub_self]
    rfl

theorem needle_codePoint {needle : List Char} {j : Nat} (partly : j < (codes needle).length) :
    utf16CodePointAt target (encode needle) (offset needle j) = (codes needle)[j] ∧
      behind ((codes needle)[j]) (offset needle j) = offset needle (j + 1) := by
  have inside : j < needle.length := by rwa [length_codes] at partly
  have code : (codes needle)[j] = (needle[j].toNat : Int) := List.getElem_map _
  rw [code]
  exact ⟨codePointAt target inside, behind_codePoint inside⟩

theorem offset_eq_zero {cs : List Char} {i : Nat} (within : i ≤ cs.length) :
    offset cs i = 0 ↔ i = 0 := by
  constructor
  · intro zero
    have empty := encode_eq_nil zero
    rw [List.take_eq_nil_iff] at empty
    obtain zero | rfl := empty
    · exact zero
    · exact Nat.le_zero.mp within
  · rintro rfl
    rfl

/-- What the comparison of a step has found, by code points. -/
structure ComparingAt (needle : List Char) (hay : List Int) (r j matchingOffset : Nat) : Prop
    extends Comparing (codes needle) hay r j where
  matchingOffset : matchingOffset = offset needle j

theorem ComparingAt.code {needle : List Char} {hay : List Int} {r j matchingOffset : Nat}
    (comparing : ComparingAt needle hay r j matchingOffset) :
    utf16CodePointAt target (encode needle) matchingOffset =
        getElem (codes needle) j comparing.partly ∧
      behind (getElem (codes needle) j comparing.partly) matchingOffset = offset needle (j + 1) := by
  obtain ⟨⟨partly, -, -⟩, rfl⟩ := comparing
  exact needle_codePoint target partly

theorem ComparingAt.begins_iff {needle : List Char} {hay : List Int} {r j matchingOffset : Nat}
    (comparing : ComparingAt needle hay r j matchingOffset) : matchingOffset = 0 ↔ j = 0 := by
  have partly := comparing.partly
  rw [length_codes] at partly
  rw [comparing.matchingOffset]
  exact offset_eq_zero (Nat.le_of_lt partly)

theorem ComparingAt.completes_iff {needle : List Char} {hay : List Int} {r j matchingOffset : Nat}
    (comparing : ComparingAt needle hay r j matchingOffset) :
    offset needle (j + 1) = (encode needle).length ↔ j + 1 = (codes needle).length := by
  have partly := comparing.partly
  rw [length_codes] at partly ⊢
  exact offset_eq_iff partly

/-- The code points of the string and of the needle differ. -/
theorem ComparingAt.ends {needle : List Char} {hay : List Int} {r j matchingOffset : Nat}
    (comparing : ComparingAt needle hay r j matchingOffset) {c : Int}
    (here : hay[r + j]? = some c) (differ : c ≠ getElem (codes needle) j comparing.partly)
    (inside : r + j < hay.length) : hay[r + j] ≠ getElem (codes needle) j comparing.partly := by
  rw [List.getElem?_eq_getElem inside] at here
  obtain rfl := Option.some.inj here
  exact differ

def never (_ : Int) : Bool := false

/-- Where the loop of `indexOf` stands. -/
structure SearchingAt (cs needle : List Char) (start pos : Nat) (search : Searching) : Prop where
  within : pos ≤ cs.length + 1
  unicodeOffset : search.unicodeOffset = pos
  nativeOffset : search.nativeOffset = if pos ≤ cs.length then offset cs pos
    else (encode cs).length + 1
  state : (pos < start ∧ search.matchingOffset = 0) ∨
    ∃ k j r, r = restart (codes needle) (ended target cs) never start k ∧ pos = r + j ∧
      ComparingAt needle (ended target cs) r j search.matchingOffset ∧
      (0 < j → search.result = r) ∧
      AbsentUpTo (codes needle) (ended target cs) never start k

/-- The first restart point with an occurrence, or `-1`. -/
def FirstRestart (needle hay : List Int) (start : Nat) (result : Int) : Prop :=
  (∃ k, result = restart needle hay never start k ∧
      needle <+: hay.drop (restart needle hay never start k) ∧
      AbsentUpTo needle hay never start k) ∨
    (result = -1 ∧ ∀ k, ¬ needle <+: hay.drop (restart needle hay never start k))

/-- A step that goes on to the next code point. -/
theorem SearchingAt.offsets {cs needle : List Char} {start pos : Nat} {search : Searching}
    (at_ : SearchingAt target cs needle start pos search) (inside : pos ≤ cs.length) :
    search.nativeOffset = offset cs pos ∧
      behind (utf16CodePointAt target (encode cs) (offset cs pos)) (offset cs pos) =
        if pos + 1 ≤ cs.length then offset cs (pos + 1) else (encode cs).length + 1 := by
  refine ⟨at_.nativeOffset.trans (if_pos inside), ?_⟩
  by_cases last : pos = cs.length
  · have small := target.eof_lt
    rw [if_neg (by omega), last, offset_length, codePointAt_end]
    exact if_neg (by omega)
  · have inside : pos < cs.length := by omega
    rw [codePointAt target inside, behind_codePoint inside]
    exact (if_pos inside).symm

theorem indexOfStep_walks {cs needle : List Char} (nonempty : needle ≠ []) (startIndex : Int)
    (search : Searching)
    (state : ∃ pos, SearchingAt target cs needle startIndex.toNat pos search) :
    (∃ next, indexOfStep target (encode cs) (encode needle) startIndex search = .again next ∧
        (∃ pos, SearchingAt target cs needle startIndex.toNat pos next) ∧
        2 * (cs.length + 1 - next.unicodeOffset) + min 1 next.matchingOffset <
          2 * (cs.length + 1 - search.unicodeOffset) + min 1 search.matchingOffset) ∨
      ∃ r, indexOfStep target (encode cs) (encode needle) startIndex search = .done r ∧
        FirstRestart (codes needle) (ended target cs) startIndex.toNat r := by
  obtain ⟨pos, at_⟩ := state
  have nonempty' : codes needle ≠ [] := mt List.map_eq_nil_iff.mp nonempty
  have place := at_.unicodeOffset
  have within := at_.within
  unfold indexOfStep
  by_cases inside : pos ≤ cs.length
  · obtain ⟨native, next⟩ := at_.offsets target inside
    have reads : search.nativeOffset ≤ (encode cs).length := by
      rw [native, length_eq cs pos]
      exact Nat.le_add_right ..
    rw [if_pos reads, native]
    dsimp only
    obtain ⟨before, fresh⟩ | ⟨k, j, r, isRestart, sum, comparing, result, absent⟩ := at_.state
    · rw [if_neg (by omega)]
      refine .inl ⟨_, rfl, ⟨pos + 1, by omega, by dsimp only; omega, next, ?_⟩, ?_⟩
      · by_cases still : pos + 1 < startIndex.toNat
        · exact .inl ⟨still, fresh⟩
        · have start : startIndex.toNat = pos + 1 := by omega
          refine .inr ⟨0, 0, _, rfl, start.symm, ⟨.start nonempty' ?_, fresh⟩, ?_, ?_⟩
          · rw [restart, start, length_ended]
            omega
          · exact fun positive => absurd positive (Nat.lt_irrefl 0)
          · exact fun i before => absurd before (Nat.not_lt_zero i)
      · dsimp only
        omega
    · have here := ended_codePoint target inside
      have reached : (search.unicodeOffset : Int) ≥ startIndex := by
        have := @origin_le_restart _ _ (codes needle) (ended target cs) never startIndex.toNat k
        omega
      obtain ⟨code, further⟩ := comparing.code target
      rw [if_pos reached, code]
      rw [sum] at here
      by_cases equal : utf16CodePointAt target (encode cs) (offset cs (r + j)) =
          getElem (codes needle) j comparing.partly
      · have same : getElem (ended target cs) (r + j) (by rw [length_ended]; omega) =
            getElem (codes needle) j comparing.partly :=
          (List.getElem_eq_iff _).mpr (here.trans (congrArg some equal))
        rw [← sum] at equal
        have recorded : (if search.matchingOffset = 0 then (search.unicodeOffset : Int)
            else search.result) = r := by
          split
          · rename_i begins
            have := comparing.begins_iff.mp begins
            omega
          · rename_i begins
            exact result (Nat.pos_of_ne_zero (mt comparing.begins_iff.mpr begins))
        rw [if_pos equal, further, recorded]
        by_cases completes : offset needle (j + 1) = (encode needle).length
        · rw [if_pos completes]
          have found := comparing.found (by rw [length_ended]; omega) same
            (comparing.completes_iff.mp completes)
          exact .inr ⟨_, rfl, .inl ⟨k, congrArg Nat.cast isRestart, isRestart ▸ found, absent⟩⟩
        · rw [if_neg completes]
          have partly := comparing.partly
          have more := comparing.more (by rw [length_ended]; omega) same
            (by have := mt comparing.completes_iff.mpr completes; omega)
          refine .inl ⟨_, rfl, ⟨pos + 1, by omega, by dsimp only; omega, next, .inr ⟨k, j + 1, r,
            isRestart, by omega, ⟨more, rfl⟩, fun _ => rfl, absent⟩⟩, ?_⟩
          dsimp only
          omega
      · have ends := comparing.ends here equal
        have nothing := absent.succ (isRestart ▸ comparing.absent ends)
        have jumps := comparing.jump_eq never ends
        rw [← sum] at equal
        rw [if_neg equal]
        by_cases begins : search.matchingOffset = 0
        · have zero := comparing.begins_iff.mp begins
          rw [if_neg (not_not_intro begins)]
          refine .inl ⟨_, rfl, ⟨pos + 1, by omega, by dsimp only; omega, next, .inr ⟨k + 1, 0,
            pos + 1, ?_, rfl, ⟨.start nonempty' ?_, begins⟩, ?_, nothing⟩⟩, ?_⟩
          · rw [restart, ← isRestart, jumps]
            omega
          · rw [length_ended]
            omega
          · exact fun positive => absurd positive (Nat.lt_irrefl 0)
          · dsimp only
            omega
        · have some_ : j ≠ 0 := mt comparing.begins_iff.mpr begins
          rw [if_pos begins]
          refine .inl ⟨_, rfl, ⟨pos, within, place, native ▸ at_.nativeOffset, .inr ⟨k + 1, 0, pos,
            ?_, rfl, ⟨.start nonempty' ?_, rfl⟩, ?_, nothing⟩⟩, ?_⟩
          · rw [restart, ← isRestart, jumps]
            omega
          · rw [length_ended]
            exact within
          · exact fun positive => absurd positive (Nat.lt_irrefl 0)
          · dsimp only
            omega
  · have beyond : pos = cs.length + 1 := by omega
    have reads : ¬ search.nativeOffset ≤ (encode cs).length := by
      rw [at_.nativeOffset, if_neg inside]
      omega
    rw [if_neg reads]
    refine .inr ⟨_, rfl, .inr ⟨rfl, fun i => ?_⟩⟩
    obtain ⟨before, fresh⟩ | ⟨k, j, r, isRestart, sum, comparing, result, absent⟩ := at_.state
    · apply not_occurs nonempty'
      have := @origin_le_restart _ _ (codes needle) (ended target cs) never startIndex.toNat i
      rw [length_ended]
      omega
    · have ends (inside : r + j < (ended target cs).length) :
          (ended target cs)[r + j] ≠ getElem (codes needle) j comparing.partly := by
        rw [length_ended] at inside
        omega
      have nothing := absent.succ (isRestart ▸ comparing.absent ends)
      by_cases before : i < k + 1
      · exact nothing i before
      · apply not_occurs nonempty'
        have jumps := comparing.jump_eq never ends
        have later := @restart_le _ _ (codes needle) (ended target cs) never startIndex.toNat _ _
          (Nat.not_lt.mp before)
        rw [restart, ← isRestart, jumps] at later
        rw [length_ended]
        omega

/-- The start of a search for the first occurrence. -/
def startSpec (length : Nat) : Option Int → Nat
  | none => 0
  | some startIndex => normalised length startIndex

theorem startOf_encode {cs : List Char} (short : cs.length < 2147483648) {startIndex : Option Int}
    (range : ∀ i, startIndex = some i → -2147483648 ≤ i) :
    ∃ i : Int, startOf target (encode cs) startIndex = some i ∧
      i.toNat = startSpec cs.length startIndex := by
  cases startIndex with
  | none => exact ⟨0, rfl, rfl⟩
  | some i =>
    have range := range i rfl
    unfold startOf startSpec normalised
    dsimp only
    rw [get_length_encode]
    split
    · refine ⟨_, rfl, ?_⟩
      exact congrArg Int.toNat (add_eq target (by omega) (by omega))
    · exact ⟨i, rfl, rfl⟩

theorem indexOf_encode {cs needle : List Char} (nonempty : needle ≠ [])
    (short : cs.length < 2147483648) {startIndex : Option Int}
    (range : ∀ i, startIndex = some i → -2147483648 ≤ i) :
    ∃ fuel r, indexOf fuel target (encode cs) (encode needle) startIndex = some r ∧
      FirstRestart (codes needle) (ended target cs) (startSpec cs.length startIndex) r := by
  obtain ⟨i, start, same⟩ := startOf_encode target short range
  have begins : ∃ pos, SearchingAt target cs needle i.toNat pos ⟨0, 0, 0, -1⟩ := by
    refine ⟨0, Nat.zero_le _, rfl, (if_pos (Nat.zero_le _)).symm, ?_⟩
    by_cases later : 0 < i.toNat
    · exact .inl ⟨later, rfl⟩
    · have zero : i.toNat = 0 := by omega
      have nonempty' : codes needle ≠ [] := mt List.map_eq_nil_iff.mp nonempty
      refine .inr ⟨0, 0, 0, zero.symm, rfl, ⟨.start nonempty' (Nat.zero_le _), rfl⟩, ?_, ?_⟩
      · exact fun positive => absurd positive (Nat.lt_irrefl 0)
      · exact fun i before => absurd before (Nat.not_lt_zero i)
  obtain ⟨fuel, r, run, first⟩ := loop_ends (s := ⟨0, 0, 0, -1⟩)
    (fun search : Searching => 2 * (cs.length + 1 - search.unicodeOffset) +
      min 1 search.matchingOffset) (indexOfStep_walks target nonempty i) begins
  rw [same] at first
  refine ⟨fuel, r, ?_, first⟩
  unfold indexOf
  rw [start]
  exact run

end Haxe.Source.UnicodeString

/-!
## The search for the last occurrence

`lastIndexOf` walks over the part of the string that an occurrence may lie in. Behind an occurrence
it compares with the end of the needle, which passes over the code points that read as an end.
-/

namespace Haxe.Source.UnicodeString

open Haxe.Theory.FueledLoops Haxe.Theory.Utf16 Haxe.Theory.GreedySearch

variable (target : Target)

/-- The code points that read as the end of a string. -/
def isEof (c : Int) : Bool := c = target.eof

/-- The code points in front of a limit. -/
def front (cs : List Char) (limit : Int) : List Int := (codes cs).take limit.toNat

theorem length_front (cs : List Char) (limit : Int) :
    (front cs limit).length = min limit.toNat cs.length := by
  rw [front, List.length_take, length_codes]

theorem front_codePoint {cs : List Char} {limit : Int} {i : Nat}
    (inside : i < (front cs limit).length) :
    (front cs limit)[i]? = some (utf16CodePointAt target (encode cs) (offset cs i)) := by
  rw [length_front] at inside
  have before : i < cs.length := by omega
  unfold front codes
  rw [List.getElem?_take_of_lt (by omega), codePointAt target before, List.getElem?_map,
    List.getElem?_eq_getElem before]
  rfl

/-- `-1` for no occurrence. -/
def indexOrAbsent : Option Nat → Int
  | none => -1
  | some r => r

/-- Where the loop of `lastIndexOf` stands: it compares, or an occurrence lies behind it. -/
structure SearchingLastAt (cs needle : List Char) (limit : Int) (pos : Nat)
    (search : SearchingLast) : Prop where
  within : pos ≤ (front cs limit).length
  unicodeOffset : search.unicodeOffset = pos
  nativeOffset : search.nativeOffset = offset cs pos
  state : (∃ k j r latest, r = restart (codes needle) (front cs limit) (isEof target) 0 k ∧
      pos = r + j ∧ ComparingAt needle (front cs limit) r j search.matchingOffset ∧
      (0 < j → search.lastIndex = r) ∧ search.result = indexOrAbsent latest ∧
      LatestUpTo (codes needle) (front cs limit) (isEof target) 0 k latest) ∨
    ∃ k e r, r = restart (codes needle) (front cs limit) (isEof target) 0 k ∧
      pos = r + needle.length + e ∧ codes needle <+: (front cs limit).drop r ∧
      e ≤ (((front cs limit).drop (r + needle.length)).takeWhile (isEof target)).length ∧
      search.matchingOffset = (encode needle).length + e ∧ search.result = r

/-- The last restart point with an occurrence, or `-1`. -/
def LastRestart (needle hay : List Int) (skips : Int → Bool) (result : Int) : Prop :=
  ∃ latest, result = indexOrAbsent latest ∧
    ∃ k, (∀ i, k ≤ i → ¬ needle <+: hay.drop (restart needle hay skips 0 i)) ∧
      LatestUpTo needle hay skips 0 k latest

theorem behind_end (needle : List Char) (e : Nat) :
    utf16CodePointAt target (encode needle) ((encode needle).length + e) = target.eof := by
  have small := target.eof_lt
  unfold utf16CodePointAt fastCodeAt
  rw [List.getElem?_eq_none (Nat.le_add_right ..)]
  dsimp only
  exact if_neg (by omega)

theorem front_inside_iff {cs needle : List Char} {limit : Int} {pos : Nat} {search : SearchingLast}
    (at_ : SearchingLastAt target cs needle limit pos search) :
    (search.nativeOffset < (encode cs).length ∧ (search.unicodeOffset : Int) < limit) ↔
      pos < (front cs limit).length := by
  rw [at_.nativeOffset, offset_lt_iff, at_.unicodeOffset, length_front]
  omega

/-- The loop ends at the end of the part. -/
theorem SearchingLastAt.finished {cs needle : List Char} (nonempty : needle ≠ []) {limit : Int}
    {pos : Nat} {search : SearchingLast}
    (at_ : SearchingLastAt target cs needle limit pos search)
    (last : ¬ pos < (front cs limit).length) :
    LastRestart (codes needle) (front cs limit) (isEof target) search.result := by
  have nonempty' : codes needle ≠ [] := mt List.map_eq_nil_iff.mp nonempty
  have within := at_.within
  obtain ⟨k, j, r, latest, isRestart, sum, comparing, -, result, latestUpTo⟩ |
    ⟨k, e, r, isRestart, sum, occurs, passed, -, result⟩ := at_.state
  · have ends (inside : r + j < (front cs limit).length) :
        (front cs limit)[r + j] ≠ getElem (codes needle) j comparing.partly := by omega
    have jumps := comparing.jump_eq (isEof target) ends
    refine ⟨latest, result, k + 1, fun i behind => ?_,
      latestUpTo.absent (isRestart ▸ comparing.absent ends)⟩
    apply not_occurs nonempty'
    have later := @restart_le _ _ (codes needle) (front cs limit) (isEof target) 0 _ _ behind
    rw [restart, ← isRestart, jumps] at later
    omega
  · have found : codes needle <+: (front cs limit).drop
        (restart (codes needle) (front cs limit) (isEof target) 0 k) := isRestart ▸ occurs
    have jumps := jump_of_occurs (isEof target) nonempty' occurs
    refine ⟨some r, result, k + 1, fun i behind => ?_, ?_⟩
    · apply not_occurs nonempty'
      have later := @restart_le _ _ (codes needle) (front cs limit) (isEof target) 0 _ _ behind
      rw [restart, ← isRestart, jumps, length_codes] at later
      omega
    · rw [isRestart]
      exact LatestUpTo.found found

/-- The walk goes on to the next code point. -/
theorem SearchingLastAt.offsets {cs needle : List Char} {limit : Int} {pos : Nat}
    {search : SearchingLast} (at_ : SearchingLastAt target cs needle limit pos search)
    (inside : pos < (front cs limit).length) :
    (front cs limit)[pos]? = some (utf16CodePointAt target (encode cs) search.nativeOffset) ∧
      behind (utf16CodePointAt target (encode cs) search.nativeOffset) search.nativeOffset =
        offset cs (pos + 1) := by
  have before : pos < cs.length := by
    rw [length_front] at inside
    omega
  rw [at_.nativeOffset]
  refine ⟨front_codePoint target inside, ?_⟩
  rw [codePointAt target before, behind_codePoint before]

theorem lastIndexOfStep_walks {cs needle : List Char} (nonempty : needle ≠ []) (limit : Int)
    (search : SearchingLast)
    (state : ∃ pos, SearchingLastAt target cs needle limit pos search) :
    (∃ next, lastIndexOfStep target (encode cs) (encode needle) limit search = .again next ∧
        (∃ pos, SearchingLastAt target cs needle limit pos next) ∧
        2 * (cs.length - next.unicodeOffset) + min 1 next.matchingOffset <
          2 * (cs.length - search.unicodeOffset) + min 1 search.matchingOffset) ∨
      ∃ r, lastIndexOfStep target (encode cs) (encode needle) limit search = .done r ∧
        LastRestart (codes needle) (front cs limit) (isEof target) r := by
  obtain ⟨pos, at_⟩ := state
  have nonempty' : codes needle ≠ [] := mt List.map_eq_nil_iff.mp nonempty
  have place := at_.unicodeOffset
  unfold lastIndexOfStep
  by_cases inside : pos < (front cs limit).length
  · obtain ⟨here, next⟩ := at_.offsets target inside
    have before : pos < cs.length := by
      rw [length_front] at inside
      omega
    rw [if_pos ((front_inside_iff target at_).mpr inside)]
    dsimp only
    rw [next]
    obtain ⟨k, j, r, latest, isRestart, sum, comparing, known, result, latestUpTo⟩ |
      ⟨k, e, r, isRestart, sum, occurs, passed, completed, result⟩ := at_.state
    · obtain ⟨code, further⟩ := comparing.code target
      rw [code]
      by_cases equal : utf16CodePointAt target (encode cs) search.nativeOffset =
          getElem (codes needle) j comparing.partly
      · have recorded : (if search.matchingOffset = 0 then (search.unicodeOffset : Int)
            else search.lastIndex) = r := by
          split
          · rename_i begins
            have := comparing.begins_iff.mp begins
            omega
          · rename_i begins
            exact known (Nat.pos_of_ne_zero (mt comparing.begins_iff.mpr begins))
        rw [sum] at here inside
        have same : (front cs limit)[r + j] = getElem (codes needle) j comparing.partly :=
          (List.getElem_eq_iff _).mpr (here.trans (congrArg some equal))
        rw [if_pos equal, further, recorded]
        by_cases completes : offset needle (j + 1) = (encode needle).length
        · have last := comparing.completes_iff.mp completes
          have found := comparing.found inside same last
          rw [length_codes] at last
          rw [if_pos completes]
          refine .inl ⟨_, rfl, ⟨pos + 1, by omega, by dsimp only; omega, rfl, .inr ⟨k, 0, r,
            isRestart, by omega, found, Nat.zero_le _, completes, rfl⟩⟩, ?_⟩
          dsimp only
          omega
        · have more := comparing.more inside same
            (by have := comparing.partly; have := mt comparing.completes_iff.mpr completes; omega)
          rw [if_neg completes]
          refine .inl ⟨_, rfl, ⟨pos + 1, by omega, by dsimp only; omega, rfl, .inl ⟨k, j + 1, r,
            latest, isRestart, by omega, ⟨more, rfl⟩, fun _ => rfl, result, latestUpTo⟩⟩, ?_⟩
          dsimp only
          omega
      · have ends := comparing.ends (sum ▸ here) equal
        have nothing := latestUpTo.absent (isRestart ▸ comparing.absent ends)
        have jumps := comparing.jump_eq (isEof target) ends
        rw [if_neg equal]
        by_cases begins : search.matchingOffset = 0
        · have zero := comparing.begins_iff.mp begins
          rw [if_neg (not_not_intro begins)]
          refine .inl ⟨_, rfl, ⟨pos + 1, by omega, by dsimp only; omega, rfl, .inl ⟨k + 1, 0,
            pos + 1, latest, ?_, rfl, ⟨.start nonempty' (by omega), begins⟩, ?_, result,
            nothing⟩⟩, ?_⟩
          · rw [restart, ← isRestart, jumps]
            omega
          · exact fun positive => absurd positive (Nat.lt_irrefl 0)
          · dsimp only
            omega
        · have some_ : j ≠ 0 := mt comparing.begins_iff.mpr begins
          rw [if_pos begins]
          refine .inl ⟨_, rfl, ⟨pos, at_.within, place, at_.nativeOffset, .inl ⟨k + 1, 0, pos,
            latest, ?_, rfl, ⟨.start nonempty' (by omega), rfl⟩, ?_, result, nothing⟩⟩, ?_⟩
          · rw [restart, ← isRestart, jumps]
            omega
          · exact fun positive => absurd positive (Nat.lt_irrefl 0)
          · dsimp only
            omega
    · have length : 0 < (encode needle).length :=
        Nat.pos_of_ne_zero (mt encode_eq_nil nonempty)
      have at_end := behind_end target needle e
      have begun : search.matchingOffset ≠ 0 := by omega
      have here' : ((front cs limit).drop (r + needle.length))[e]? =
          some (utf16CodePointAt target (encode cs) search.nativeOffset) := by
        rw [List.getElem?_drop, ← sum, here]
      rw [← completed] at at_end
      rw [at_end]
      by_cases skip : utf16CodePointAt target (encode cs) search.nativeOffset = target.eof
      · have small := target.eof_lt
        have one : behind target.eof search.matchingOffset = search.matchingOffset + 1 :=
          if_neg (by omega)
        rw [if_pos skip, one, if_neg (by omega), if_neg begun]
        refine .inl ⟨_, rfl, ⟨pos + 1, by omega, by dsimp only; omega, rfl, .inr ⟨k, e + 1, r,
          isRestart, by omega, occurs, ?_, by dsimp only; omega, result⟩⟩, ?_⟩
        · exact takeWhile_goes_on passed here' (decide_eq_true skip)
        · dsimp only
          omega
      · have run := takeWhile_ends passed here' (decide_eq_false skip)
        have jumps := jump_of_occurs (isEof target) nonempty' occurs
        rw [length_codes, run] at jumps
        rw [if_neg skip, if_pos begun]
        have found : codes needle <+: (front cs limit).drop
          (restart (codes needle) (front cs limit) (isEof target) 0 k) := isRestart ▸ occurs
        refine .inl ⟨_, rfl, ⟨pos, at_.within, place, at_.nativeOffset, .inl ⟨k + 1, 0, pos,
          some r, ?_, rfl, ⟨.start nonempty' (by omega), rfl⟩, ?_, result, ?_⟩⟩, ?_⟩
        · rw [restart, ← isRestart, jumps, sum]
        · exact fun positive => absurd positive (Nat.lt_irrefl 0)
        · rw [isRestart]
          exact LatestUpTo.found found
        · dsimp only
          omega
  · rw [if_neg (mt (front_inside_iff target at_).mp inside)]
    exact .inr ⟨_, rfl, at_.finished target nonempty inside⟩

theorem lastIndexOf_encode {cs needle : List Char} (nonempty : needle ≠ [])
    (startIndex : Option Int) :
    ∃ fuel r, lastIndexOf fuel target (encode cs) (encode needle) startIndex = some r ∧
      LastRestart (codes needle)
        (front cs (target.add (lastStartOf (encode cs) startIndex) needle.length))
        (isEof target) r := by
  have nonempty' : codes needle ≠ [] := mt List.map_eq_nil_iff.mp nonempty
  unfold lastIndexOf
  rw [get_length_encode]
  simp only [Option.bind_some]
  generalize target.add (lastStartOf (encode cs) startIndex) needle.length = limit
  have begins : ∃ pos, SearchingLastAt target cs needle limit pos ⟨0, 0, -1, -1, 0⟩ := by
    refine ⟨0, Nat.zero_le _, rfl, rfl, .inl ⟨0, 0, 0, none, rfl, rfl,
      ⟨.start nonempty' (Nat.zero_le _), rfl⟩, ?_, rfl, ?_⟩⟩
    · exact fun positive => absurd positive (Nat.lt_irrefl 0)
    · exact fun i before => absurd before (Nat.not_lt_zero i)
  exact loop_ends (fun search : SearchingLast => 2 * (cs.length - search.unicodeOffset) +
    min 1 search.matchingOffset) (lastIndexOfStep_walks target nonempty limit) begins

end Haxe.Source.UnicodeString
