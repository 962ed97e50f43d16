import Haxe.Source.Macro.EvalArrayRuns
import Haxe.Source.Macro.StringHeap
import Haxe.Source.Macro.StringSearch
import Haxe.Source.Macro.EvalIntegers

/-!
# Arrays of the macro interpreter

A program that works on arrays observes the same as one that works on sequences, up to the
first call that writes behind the end of an array over a value that was removed earlier and
is still in the buffer: that value is an element again.
-/

namespace Haxe.Guarantees.EvalArrays

open Source.Macro.EvalArray
open Theory

variable {α : Type} (R : Runtime α)

/-- After each of the calls so far the answers are those for sequences, and the arrays have
the elements of the sequences. -/
def Faithful (values : List (List α)) (calls : List (Call α)) : Prop :=
  ∀ n, (run (perform R) (values.map create) (calls.take n)).2 =
      (run (Sequence.perform R) values (calls.take n)).2 ∧
    Represents (run (perform R) (values.map create) (calls.take n)).1
      (run (Sequence.perform R) values (calls.take n)).1

theorem represents_create (values : List (List α)) : Represents (values.map create) values := by
  induction values with
  | nil => exact .nil
  | cons l values ih => exact .cons (Refines.create l) ih

variable {R}

/-- From arrays that represent sequences, all later states do exactly if all calls are clean. -/
theorem run_matches {heap : List (VArray α)} {sequences : List (List α)}
    (represents : Represents heap sequences) (calls : List (Call α)) :
    (∀ n, (run (perform R) heap (calls.take n)).2 =
        (run (Sequence.perform R) sequences (calls.take n)).2 ∧
      Represents (run (perform R) heap (calls.take n)).1
        (run (Sequence.perform R) sequences (calls.take n)).1) ↔ CleanRun R heap calls := by
  induction calls generalizing heap sequences with
  | nil =>
    refine ⟨fun _ => trivial, fun _ n => ?_⟩
    rw [List.take_nil]
    exact ⟨rfl, represents⟩
  | cons call calls ih =>
    obtain ⟨answer, after⟩ := @step_matches α R heap sequences represents call
    constructor
    · intro faithful
      have first : Clean R heap call := after.mp (faithful 1).2
      refine ⟨first, (ih (after.mpr first)).mp fun n => ?_⟩
      obtain ⟨answers, states⟩ := faithful (n + 1)
      exact ⟨(List.cons.inj answers).2, states⟩
    · rintro ⟨first, rest⟩ n
      cases n with
      | zero => exact ⟨rfl, represents⟩
      | succ n =>
        obtain ⟨answers, states⟩ := (ih (after.mpr first)).mpr rest n
        exact ⟨List.cons_eq_cons.mpr ⟨answer, answers⟩, states⟩

/-- A program on arrays is right in every state exactly if no call uncovers an old value. -/
theorem arrays_refine_iff (R : Runtime α) (values : List (List α)) (calls : List (Call α)) :
    Faithful R values calls ↔ CleanRun R (values.map create) calls :=
  run_matches (represents_create values) calls

/-- Values that are numbers or `null`. -/
def sampleRuntime : Runtime (Option Nat) where
  vnull := none
  equals := (· = ·)
  sort _ l := l
  sort_perm _ l := .refl l

/-- `a.shift(); a.shift(); a[2] = 9; a[1]`. -/
def sampleCalls : List (Call (Option Nat)) :=
  [⟨0, .shift⟩, ⟨0, .shift⟩, ⟨0, .set 2 (some 9)⟩, ⟨0, .get 1⟩]

/-- On `[1, 2, 3]` the last call returns 3, which was moved out of the array. -/
theorem shifted_reappears :
    (run (perform sampleRuntime) [create [some 1, some 2, some 3]] sampleCalls).2 =
      [.ok (.value (some 1)), .ok (.value (some 2)), .ok (.value (some 9)),
        .ok (.value (some 3))] ∧
    (run (Sequence.perform sampleRuntime) [[some 1, some 2, some 3]] sampleCalls).2 =
      [.ok (.value (some 1)), .ok (.value (some 2)), .ok (.value (some 9)), .ok (.value none)] :=
  ⟨rfl, rfl⟩

end Haxe.Guarantees.EvalArrays

/-!
## Representation of strings

In a run of the macro interpreter every string keeps its code points counted and its cached
offsets right, and so is read right at every index, as long as `urlDecode` and `add` are given
ASCII, `split` counts no slip, and `addSub` does not start in front of a string.
-/

namespace Haxe.Guarantees.StringRepresentation

open Source UTF8 EvalString StdString StringHeap

theorem strings_represented {operations : List Operation}
    (counts : Heap.AllCount Heap.start operations) :
    ∀ s ∈ (Heap.start.run operations).strings, ∃ points : List CodePoint, Represents s points ∧
      (∀ i (inside : i < points.length),
        (EvalString.charAt s i).1 = .ok (points[i].val : Int)) ∧
      ∀ i n : Nat, i + n ≤ points.length →
        (EvalString.substr s i n).1 = .ok (ofPoints ((points.drop i).take n)) := by
  intro s member
  obtain ⟨points, represents⟩ := (Heap.valid_start.run counts).strings s member
  refine ⟨points, represents, fun i inside => ?_, fun i n inside => ?_⟩
  · exact (charAt_ok represents inside).1
  · exact (substr_ok represents inside).1

/-- A buffer that is given a string, a number and a substring from the end. -/
def buffering : List Operation :=
  [.literal [0x61, 0xe9], .charAt 1 1, .newBuffer, .addString 0 2, .addOther 0 [0x31, 0x32],
    .addSub 0 1 1 none, .toString 0, .urlDecode 0]

theorem buffering_counts : Heap.AllCount Heap.start buffering := by
  refine ⟨trivial, trivial, trivial, trivial, ?_, ?_, trivial, ?_, trivial⟩
  · unfold Heap.Counts
    intro u member
    rcases List.mem_pair.mp member with rfl | rfl
    · decide +kernel
    · decide +kernel
  · exact fun s _ front => absurd front (by decide)
  · intro s found c member
    obtain rfl := Option.some.inj (found.symm.trans (by decide +kernel : _ = some emptyString))
    exact absurd member List.not_mem_nil

/-- `é12é` -/
theorem buffered_represented :
    (Heap.start.run buffering).strings[3]? = some ⟨[0xc3, 0xa9, 0x31, 0x32, 0xc3, 0xa9], 4, []⟩ ∧
      ∃ points : List CodePoint,
        Represents ⟨[0xc3, 0xa9, 0x31, 0x32, 0xc3, 0xa9], 4, []⟩ points ∧
        (∀ i (inside : i < points.length),
          (EvalString.charAt ⟨[0xc3, 0xa9, 0x31, 0x32, 0xc3, 0xa9], 4, []⟩ i).1 =
            .ok (points[i].val : Int)) ∧
        ∀ i n : Nat, i + n ≤ points.length →
          (EvalString.substr ⟨[0xc3, 0xa9, 0x31, 0x32, 0xc3, 0xa9], 4, []⟩ i n).1 =
            .ok (ofPoints ((points.drop i).take n)) := by
  have made : (Heap.start.run buffering).strings[3]? =
      some ⟨[0xc3, 0xa9, 0x31, 0x32, 0xc3, 0xa9], 4, []⟩ := by
    decide +kernel
  exact ⟨made, strings_represented buffering_counts _ (List.mem_of_getElem? made)⟩

/-- `urlDecode("é")` is a string of one character whose length is two. -/
theorem decoded_miscounted :
    ¬ ∀ s ∈ (Heap.start.run [.literal [0xe9], .urlDecode 1]).strings, IsText s := by
  intro texts
  have made : (Heap.start.run [.literal [0xe9], .urlDecode 1]).strings =
      [emptyString, ⟨[0xc3, 0xa9], 1, []⟩, ⟨[0xc3, 0xa9], 2, []⟩] := by
    decide +kernel
  rw [made] at texts
  obtain ⟨points, represents⟩ := texts ⟨[0xc3, 0xa9], 2, []⟩ (by simp)
  have same : encode points = encode [0xe9] :=
    represents.bytes.symm.trans (by decide +kernel)
  have count := represents.length
  rw [encode_injective same] at count
  exact absurd count (by decide)

end Haxe.Guarantees.StringRepresentation

/-!
## String search

`indexOf`, `split` and `replace` of the macro interpreter give what the definition over code
points gives exactly if the search does not slip where its index matters, and `lastIndexOf`
exactly if it starts inside the string. A slip is a comparison that starts at a character of
several bytes and fails at an ASCII character.
-/

namespace Haxe.Guarantees.StringSearch

open Source UTF8 EvalString StdString
open Theory Occurrence

/-- A string with the code points it represents, whatever offsets are cached. -/
structure Text where
  value : VString
  points : List CodePoint
  represents : Represents value points

/-- A search finds something or raises `Not_found`. -/
def SearchEnds (result : Res (Int × Int × Int)) : Prop :=
  (∃ found, result = .ok found) ∨ result = .error .notFound

theorem searchEnds_elim {β : Type} (place : Option β) (found : β → Int × Int × Int) :
    SearchEnds (place.elim (.error .notFound) fun r => .ok (found r)) := by
  cases place with
  | none => exact Or.inr rfl
  | some r => exact Or.inl ⟨found r, rfl⟩

theorem indexOf_total (this str : Text) (startIndex : Option Int) :
    ∃ i, (indexOf this.value str.value startIndex).1 = .ok i :=
  ⟨_, indexOf_eq this.represents str.represents startIndex⟩

theorem replace_total (this sub by' : Text) :
    ∃ v, replace this.value sub.value by'.value = .ok v := by
  have long := length_le_encode this.points
  unfold replace
  dsimp only
  by_cases empty : sub.points = []
  · rw [if_pos ((slength_eq_zero sub.represents).mpr empty), this.represents.bytes, iter_encode]
    split
    · exact ⟨_, rfl⟩
    · exact ⟨_, rfl⟩
  · rw [if_neg (mt (slength_eq_zero sub.represents).mp empty)]
    obtain ⟨x, n, loop, -⟩ := @replaceLoop_spec this.points sub.points this.value sub.value
      by'.value by'.points this.represents sub.represents by'.represents empty 0 0
      (this.value.sstring.length + 1) (Nat.le_refl 0) (Nat.zero_le _)
      (by rw [this.represents.bytes]; omega)
    rw [offset_zero, Int.natCast_zero] at loop
    rw [loop]
    exact ⟨_, rfl⟩

theorem searches_iff (this str by' : Text) (startIndex : Option Int) :
    ((indexOf this.value str.value startIndex).1 =
        .ok (expectedIndexOf str.points this.points startIndex) ↔
      Unslipped str.points this.points (indexStart this.points startIndex)) ∧
    ((lastIndexOf this.value str.value startIndex).1 =
        .ok (expectedLastIndexOf str.points this.points startIndex) ↔
      StartsInside str.points this.points this.value startIndex) ∧
    (split this.value str.value = .ok ((pieces str.points this.points).map ofPoints) ↔
      SplitsUnslipped str.points this.points) ∧
    ((∃ v, replace this.value str.value by'.value = .ok v ∧
        Represents v (replaced str.points by'.points this.points)) ↔
      by'.points = str.points ∨ FindsAll this.points.length str.points 0 this.points) ∧
    (∃ i, (indexOf this.value str.value startIndex).1 = .ok i) ∧
    ((∃ i, (lastIndexOf this.value str.value startIndex).1 = .ok i) ↔
      StartsInside str.points this.points this.value startIndex) ∧
    (∃ l, split this.value str.value = .ok l) ∧
    (∃ v, replace this.value str.value by'.value = .ok v) ∧
    (∀ p c : Nat, str.points ≠ [] → p ≤ c → p ≤ this.points.length →
      SearchEnds (findSubstring this.value str.value false c (offset this.points p))) ∧
    (∀ p : Nat, str.points ≠ [] → p + str.points.length ≤ this.points.length →
      SearchEnds (findSubstring this.value str.value true p (offset this.points p))) := by
  have thisIs := this.represents
  have strIs := str.represents
  have last := lastIndexOf_iff thisIs strIs startIndex
  refine ⟨indexOf_iff thisIs strIs startIndex, last, split_iff thisIs strIs,
    replace_iff thisIs strIs by'.represents, indexOf_total this str startIndex, ?_,
    split_total thisIs strIs, replace_total this str by', ?_, ?_⟩
  · constructor
    · intro ended
      obtain ⟨i, got⟩ := ended
      by_contra outside
      rw [lastIndexOf_outside thisIs strIs outside] at got
      cases got
    · intro inside
      exact ⟨_, last.mpr inside⟩
  · intro p c nonempty ahead upto
    rw [findSubstring_forward thisIs strIs nonempty ahead upto]
    exact searchEnds_elim _ _
  · intro p nonempty room
    have long := length_le_encode this.points
    have search : findSubstring this.value str.value true p (offset this.points p) = _ :=
      reverseLoop_eq thisIs strIs nonempty room (by rw [thisIs.bytes]; omega)
    rw [search]
    exact searchEnds_elim _ _

/-- In `"éaéb"` the search for `"éb"` slips at the first character: the occurrence at 2 is
not reported. -/
theorem slipped_search :
    (indexOf (ofPoints [0xe9, 0x61, 0xe9, 0x62]) (ofPoints [0xe9, 0x62]) none).1 = .ok (-1) ∧
      expectedIndexOf [0xe9, 0x62] [0xe9, 0x61, 0xe9, 0x62] none = 2 := by
  decide +kernel

end Haxe.Guarantees.StringSearch

/-!
## 64-bit integers of the interpreter

The bytes of a buffer keep what is written to them. A `haxe.Int64` is decoded as the number that
its words spell when the sign of the low word does not reach into the high one.
-/

namespace Haxe.Guarantees.EvalIntegers

open Source.EvalBytes Source.EvalIntegers

/-- The buffer after `bytes` bytes of `v` have been written at `i`, the low one first. -/
structure Written {w : Nat} (bytes : Nat) (read : Bytes → Int → Except String (BitVec w))
    (this : Bytes) (i : Int) (v : BitVec w) (after : Bytes) : Prop where
  reads : read after i = .ok v
  length : after.length = this.length
  others : ∀ k : Nat, k < i ∨ i + bytes ≤ k → after[k]? = this[k]?
  little : ∀ j, j < bytes → after[i.toNat + j]? = some ((v >>> (8 * j)).setWidth 8)

/-- A value within the buffer is kept; any other write raises. -/
def Keeps {w : Nat} (bytes : Nat) (write : Int → BitVec w → EStateM String Bytes Unit)
    (read : Bytes → Int → Except String (BitVec w)) (this : Bytes) (i : Int) (v : BitVec w) :
    Prop :=
  if 0 ≤ i ∧ i + bytes ≤ this.length then
    ∃ after, write i v this = .ok () after ∧ Written bytes read this i v after
  else ∃ left, write i v this = .error indexOutOfBounds left

/-- An integer, two words, and a write of each width. -/
structure Survive (i64 : BitVec 64) (high low : BitVec 32) (this : Bytes) (i : Int)
    (v32 : BitVec 32) (v64 : BitVec 64) : Prop where
  direct : decodeHaxeI64 (encodeHaxeI64Direct i64) = .ok i64
  words : ∀ v, Words high low v → ∃ decoded, decodeHaxeI64 v = .ok decoded ∧
    decoded.toInt = high.toInt * 2 ^ 32 + low.toNat
  bytesI32 : Keeps 4 writeI32 readI32 this i v32
  bytesI64 : Keeps 8 writeI64 readI64 this i v64

theorem direct_iff (i64 : BitVec 64) :
    decodeHaxeI64 (encodeHaxeI64Direct i64) = .ok i64 ↔
      Plain ((i64 >>> 32).setWidth 32) (i64.setWidth 32) := by
  have decoded := decode_words
    (words_encode (i64.setWidth 32) ((i64 >>> 32).setWidth 32))
  rw [← ored_iff, words_append, encodeHaxeI64Direct, decoded, Except.ok.injEq]

theorem words_iff (high low : BitVec 32) :
    (∀ v, Words high low v → ∃ decoded, decodeHaxeI64 v = .ok decoded ∧
      decoded.toInt = high.toInt * 2 ^ 32 + low.toNat) ↔ Plain high low := by
  rw [← ored_iff]
  constructor
  · intro every
    obtain ⟨decoded, decodes, spells⟩ := every _ (words_encode low high)
    rw [decode_words (words_encode low high)] at decodes
    rw [Except.ok.inj decodes]
    exact BitVec.toInt_inj.mp (spells.trans (toInt_words high low).symm)
  · intro spelled v words
    exact ⟨_, (decode_words words).trans (congrArg _ spelled), toInt_words high low⟩

/-- A write that passes on the bytes of the value one after another keeps it. -/
theorem keeps_of_row {w bytes : Nat} {write : Int → BitVec w → EStateM String Bytes Unit}
    {read : Bytes → Int → Except String (BitVec w)} {v : BitVec w} {row : List (BitVec 63)}
    (written : ∀ i, write i v = writeRow i row) (length : row.length = bytes)
    (positive : 0 < bytes)
    (stored : ∀ j, j < bytes →
      (row.map fun one => one.setWidth 8)[j]? = some ((v >>> (8 * j)).setWidth 8))
    (reads : ∀ (after : Bytes) (n : Nat),
      (∀ j, j < bytes → after[n + j]? = some ((v >>> (8 * j)).setWidth 8)) →
      read after n = .ok v)
    (this : Bytes) (i : Int) : Keeps bytes write read this i v := by
  unfold Keeps
  rw [written]
  split
  · rename_i inside
    have place : i = (i.toNat : Int) := by omega
    have fits : i.toNat + row.length ≤ this.length := by omega
    have count : (row.map fun one => one.setWidth 8 : Bytes).length = bytes := by
      rw [List.length_map, length]
    have little : ∀ j, j < bytes →
        (overwrite this i.toNat (row.map fun one => one.setWidth 8))[i.toNat + j]? =
          some ((v >>> (8 * j)).setWidth 8) := by
      intro j small
      rw [← stored j small]
      exact overwrite_inside this _ (by omega) (by omega)
    refine ⟨_, writeRow_inside place fits, ?_, overwrite_length _ _ _, ?_, little⟩
    · rw [place]
      exact reads _ _ little
    · intro k outside
      exact overwrite_outside this _ (by omega)
  · rename_i outside
    refine writeRow_outside (by omega) fun none => ?_
    rw [none, List.length_nil] at length
    omega

theorem keeps_bytesI32 (this : Bytes) (i : Int) (v : BitVec 32) :
    Keeps 4 writeI32 readI32 this i v := by
  have positive : 0 < 4 := by decide
  apply keeps_of_row (fun i => writeI32_row i v) rfl positive
  · intro j small
    rw [rowI32_bytes]
    exact bytesI32_get v small
  · intro after n little
    exact readI32_spelled rfl little

/-- The low bytes are those of the low word. -/
theorem lowByte (v : BitVec 64) {j : Nat} (small : j < 4) :
    (v >>> (8 * j)).setWidth 8 = (v.setWidth 32 >>> (8 * j)).setWidth 8 := by
  apply BitVec.eq_of_getLsbD_eq
  intro i inside
  simp only [BitVec.getLsbD_setWidth, BitVec.getLsbD_ushiftRight]
  grind

/-- The other bytes are those of the high word. -/
theorem highByte (v : BitVec 64) (j : Nat) :
    (v >>> (8 * (j + 4))).setWidth 8 =
      ((v >>> 32).setWidth 32 >>> (8 * j)).setWidth 8 := by
  apply BitVec.eq_of_getLsbD_eq
  intro i inside
  simp only [BitVec.getLsbD_setWidth, BitVec.getLsbD_ushiftRight]
  grind

theorem rowI64_get (v : BitVec 64) {j : Nat} (small : j < 8) :
    ((rowI64 v).map fun one => one.setWidth 8)[j]? = some ((v >>> (8 * j)).setWidth 8) := by
  rw [rowI64, List.map_append, rowI32_bytes, rowI32_bytes]
  by_cases low : j < 4
  · rw [List.getElem?_append_left low, bytesI32_get _ low, lowByte v low]
  · rw [List.getElem?_append_right (Nat.le_of_not_lt low)]
    have high : j - 4 < 4 := by omega
    have byte := highByte v (j - 4)
    rw [Nat.sub_add_cancel (Nat.le_of_not_lt low)] at byte
    rw [byte]
    exact bytesI32_get _ high

theorem keeps_bytesI64 (this : Bytes) (i : Int) (v : BitVec 64) :
    Keeps 8 writeI64 readI64 this i v := by
  have positive : 0 < 8 := by decide
  have length : (rowI64 v).length = 8 := rfl
  apply keeps_of_row (fun i => writeI64_row i v) length positive
  · intro j small
    exact rowI64_get v small
  · intro after n little
    have read : readI64 after n = .ok ((v >>> 32).setWidth 32 ++ v.setWidth 32) := by
      apply readI64_spelled rfl
      · intro j small
        rw [little j (by omega), lowByte v small]
      · intro j small
        rw [Nat.add_assoc, Nat.add_comm 4, little (j + 4) (by omega), highByte v j]
    rw [read, words_append]

theorem integers_survive_iff (i64 : BitVec 64) (high low : BitVec 32) (this : Bytes) (i : Int)
    (v32 : BitVec 32) (v64 : BitVec 64) :
    Survive i64 high low this i v32 v64 ↔
      Plain ((i64 >>> 32).setWidth 32) (i64.setWidth 32) ∧ Plain high low := by
  constructor
  · intro survive
    exact ⟨(direct_iff i64).mp survive.direct, (words_iff high low).mp survive.words⟩
  · intro plain
    exact ⟨(direct_iff i64).mpr plain.1, (words_iff high low).mpr plain.2,
      keeps_bytesI32 this i v32, keeps_bytesI64 this i v64⟩

/-- A low word with its top bit set loses the high word. -/
theorem low_sign_spreads : ¬ (∀ i64 high low this i v32 v64,
      Survive i64 high low this i v32 v64) ∧
    decodeHaxeI64 (encodeHaxeI64Direct 0x80000000) = .ok 0xFFFFFFFF80000000 ∧
    decodeHaxeI64 (encodeHaxeI64 0x80000000 0) = .ok 0xFFFFFFFF80000000 := by
  refine ⟨fun every => ?_, ?_, ?_⟩
  · have plain := (words_iff 0 0x80000000).mp (every 0 0 0x80000000 [] 0 0 0).words
    exact absurd plain (by decide)
  · rw [encodeHaxeI64Direct, decode_words (words_encode _ _)]
    exact congrArg Except.ok (by decide)
  · rw [decode_words (words_encode _ _)]
    exact congrArg Except.ok (by decide)

end Haxe.Guarantees.EvalIntegers
