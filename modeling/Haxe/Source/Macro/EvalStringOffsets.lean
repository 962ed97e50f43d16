import Haxe.Source.Extlib.UTF8Boundaries
import Haxe.Source.Macro.EvalString

/-!
# Cached offsets of strings

A string represents code points if its bytes are their encoding, its length is their number
and every cached pair is a character with its byte offset. From such a pair every other
character is reached, in whichever direction, and the pairs stay right.
-/

namespace Haxe.Source.EvalString

open UTF8

/-- A pair of a character, or of the end, with its byte offset. -/
def IsOffset (points : List CodePoint) (p : Int × Int) : Prop :=
  ∃ c : Nat, c ≤ points.length ∧ p = ((c : Int), (offset points c : Int))

structure Represents (s : VString) (points : List CodePoint) : Prop where
  bytes : s.sstring = encode points
  length : s.slength = points.length
  pairs : s.soffsets.length ≤ 2
  cached : ∀ p ∈ s.soffsets, IsOffset points p

/-- The string of some code points, with no offset cached. -/
def ofPoints (points : List CodePoint) : VString := createWithLength (encode points) points.length

theorem represents_ofPoints (points : List CodePoint) : Represents (ofPoints points) points where
  bytes := rfl
  length := rfl
  pairs := Nat.zero_le 2
  cached _ none := absurd none List.not_mem_nil

variable {points : List CodePoint}

theorem getBOffset_ok {c n fuel : Nat} (inside : c + n ≤ points.length) (enough : n < fuel) :
    getBOffset (encode points) fuel n (offset points c) = .ok (offset points (c + n)) := by
  induction n generalizing c fuel with
  | zero =>
    obtain ⟨fuel, rfl⟩ : ∃ k, fuel = k + 1 := Nat.exists_eq_add_one.mpr enough
    rw [getBOffset, if_pos (by omega), Nat.add_zero]
  | succ n ih =>
    obtain ⟨fuel, rfl⟩ : ∃ k, fuel = k + 1 := Nat.exists_eq_add_one.mpr (by omega)
    have rest := @ih (c + 1) fuel (by omega) (by omega)
    rw [getBOffset, if_neg (by omega), next_offset (by omega)]
    simp only [bind, Except.bind]
    rw [show ((n + 1 : Nat) : Int) - 1 = n by omega, rest]
    congr 3
    omega

/-- A step count that no character of the text has ends in an exception. -/
theorem getBOffset_beyond {c fuel : Nat} {n : Int} (inside : c ≤ points.length)
    (outside : n < 0 ∨ points.length < c + n) (enough : points.length + 1 < c + fuel) :
    getBOffset (encode points) fuel n (offset points c) = .error .invalidArgument := by
  induction fuel generalizing c n with
  | zero => omega
  | succ fuel ih =>
    rw [getBOffset, if_neg (by omega)]
    by_cases last : c = points.length
    · rw [last, offset_length, next_end]
      rfl
    · rw [next_offset (by omega)]
      exact ih (by omega) (by omega) (by omega)

/-- From a cached offset to a character that is not a neighbour. -/
theorem stepsFrom_ok {c c1 : Nat} (inside : c ≤ points.length) (cached : c1 ≤ points.length) :
    stepsFrom (encode points) c (c - c1) (offset points c1) = .ok (offset points c) := by
  have long := length_le_encode points
  unfold stepsFrom
  split
  · obtain ⟨n, rfl⟩ : ∃ n, c = c1 + n := ⟨c - c1, by omega⟩
    rw [show ((c1 + n : Nat) : Int) - c1 = n by omega]
    exact getBOffset_ok inside (by omega)
  · split
    · have start := @getBOffset_ok points 0 c ((encode points).length + 2) (by omega) (by omega)
      rw [Nat.zero_add] at start
      exact start
    · obtain ⟨n, rfl⟩ : ∃ n, c1 = c + n := ⟨c1 - c, by omega⟩
      rw [show (-((c : Int) - (c + n : Nat))).toNat = n by omega]
      exact prevTimes_offset cached

theorem next_ok {c c1 : Nat} (inside : c ≤ points.length) (step : (c : Int) - c1 = 1) :
    next (encode points) (offset points c1) = .ok (offset points c) := by
  obtain rfl : c = c1 + 1 := by omega
  exact next_offset (by omega)

theorem prev_ok {c c1 : Nat} (cached : c1 ≤ points.length) (step : (c : Int) - c1 = -1) :
    prev (encode points) (offset points c1) = .ok (offset points c) := by
  obtain rfl : c1 = c + 1 := by omega
  exact prev_offset (by omega)

theorem fromPair_ok {c c1 : Nat} (inside : c ≤ points.length) (cached : c1 ≤ points.length) :
    fromPair (encode points) c c1 (offset points c1) = .ok (offset points c) := by
  unfold fromPair
  dsimp only
  split_ifs with same step back
  · obtain rfl : c = c1 := by omega
    rfl
  · exact next_ok inside step
  · exact prev_ok cached back
  · exact stepsFrom_ok inside cached

/-- `get_offset'` finds every character of the text and the end, and leaves right pairs. -/
theorem getOffset'_ok {s : VString} (represents : Represents s points) {c : Nat}
    (inside : c ≤ points.length) :
    ∃ r offsets, getOffset' s c = .ok ((offset points c : Int), r, offsets) ∧
      offsets.length ≤ 2 ∧ ∀ p ∈ offsets, IsOffset points p := by
  obtain ⟨bytes, -, pairs, cached⟩ := represents
  obtain ⟨sstring, slength, soffsets⟩ := s
  dsimp only at bytes pairs cached
  subst bytes
  have long := length_le_encode points
  have here : IsOffset points ((c : Int), (offset points c : Int)) := ⟨c, inside, rfl⟩
  cases soffsets with
  | nil =>
    have start := @getBOffset_ok points 0 c ((encode points).length + 2) (by omega) (by omega)
    rw [Nat.zero_add, offset_zero, show ((0 : Nat) : Int) = 0 from rfl] at start
    refine ⟨0, [((c : Int), (offset points c : Int))], ?_, by simp, ?_⟩
    · unfold getOffset'
      simp only [start, bind, Except.bind, pure, Except.pure]
    · intro p member
      obtain rfl := List.mem_singleton.mp member
      exact here
  | cons p1 rest =>
    obtain ⟨c1, cached1, rfl⟩ := cached p1 List.mem_cons_self
    cases rest with
    | nil =>
      unfold getOffset'
      simp only [bind, Except.bind, fromPair_ok inside cached1]
      split
      · refine ⟨_, _, rfl, by simp, ?_⟩
        intro p member
        rcases List.mem_cons.mp member with rfl | old
        · exact here
        · exact cached p old
      · exact ⟨_, _, rfl, by simp, cached⟩
    | cons p2 rest =>
      obtain ⟨c2, cached2, rfl⟩ := cached p2 (List.mem_cons_of_mem _ List.mem_cons_self)
      obtain rfl : rest = [] := by
        simp only [List.length_cons] at pairs
        exact List.length_eq_zero_iff.mp (by omega)
      unfold getOffset'
      simp only [bind, Except.bind]
      split_ifs with same1 same2 step1 step2 back1 back2 far
      · obtain rfl : c = c1 := by omega
        exact ⟨_, _, rfl, pairs, cached⟩
      · obtain rfl : c = c2 := by omega
        exact ⟨_, _, rfl, pairs, cached⟩
      · rw [next_ok inside step1]
        exact ⟨_, _, rfl, pairs, cached⟩
      · rw [next_ok inside step2]
        exact ⟨_, _, rfl, pairs, cached⟩
      · rw [prev_ok cached1 back1]
        exact ⟨_, _, rfl, pairs, cached⟩
      · rw [prev_ok cached2 back2]
        exact ⟨_, _, rfl, pairs, cached⟩
      · rw [stepsFrom_ok inside cached2]
        exact ⟨_, _, rfl, pairs, cached⟩
      · rw [stepsFrom_ok inside cached1]
        exact ⟨_, _, rfl, pairs, cached⟩

/-- A pair is replaced by a right one. -/
theorem Represents.set {s : VString} (represents : Represents s points)
    {offsets : List (Int × Int)} (pairs : offsets.length ≤ 2)
    (cached : ∀ p ∈ offsets, IsOffset points p) {c : Nat} (inside : c ≤ points.length) (r : Nat) :
    Represents { s with soffsets := offsets.set r ((c : Int), (offset points c : Int)) }
      points where
  bytes := represents.bytes
  length := represents.length
  pairs := by
    rw [List.length_set]
    exact pairs
  cached p member := by
    rcases List.mem_or_eq_of_mem_set member with old | rfl
    · exact cached p old
    · exact ⟨c, inside, rfl⟩

theorem getOffset_ok {s : VString} (represents : Represents s points) {c : Nat}
    (inside : c ≤ points.length) :
    (getOffset s c).1 = .ok (offset points c : Int) ∧ Represents (getOffset s c).2 points := by
  obtain ⟨r, offsets, got, pairs, cached⟩ := getOffset'_ok represents inside
  unfold getOffset
  rw [got]
  exact ⟨rfl, represents.set pairs cached inside r⟩

/-- `char_at` gives the code point at an index. -/
theorem charAt_ok {s : VString} (represents : Represents s points) {c : Nat}
    (inside : c < points.length) :
    (charAt s c).1 = .ok (points[c].val : Int) ∧ Represents (charAt s c).2 points := by
  obtain ⟨r, offsets, got, pairs, cached⟩ := getOffset'_ok represents (Nat.le_of_lt inside)
  have behind : (offset points c : Int) + (addUchar points[c]).length =
      (offset points (c + 1) : Int) := by
    rw [offset_succ inside]
    omega
  unfold charAt
  rw [got]
  dsimp only
  rw [represents.bytes, look_offset inside]
  dsimp only
  rw [behind]
  have after := represents.set pairs cached (Nat.succ_le_of_lt inside) r
  exact ⟨rfl, represents.bytes ▸ after⟩

/-- An offset of the first character is cached. -/
def cachesStart (s : VString) : Bool := s.soffsets.any fun p => p.1 = 0

theorem stepsFrom_negative {i : Int} {c1 : Nat} (negative : i < 0) :
    stepsFrom (encode points) i (i - c1) (offset points c1) = .error .invalidArgument := by
  have start := @getBOffset_beyond points 0 ((encode points).length + 2) i (Nat.zero_le _)
    (Or.inl negative) (by have := length_le_encode points; omega)
  unfold stepsFrom
  rw [if_neg (by omega), if_pos (by omega)]
  exact start

/-- A negative index is an exception, except for -1 beside a cached first character: then the
byte in front of the string is found. -/
theorem getOffset'_negative {s : VString} (represents : Represents s points) {i : Int}
    (negative : i < 0) :
    (i = -1 ∧ cachesStart s = true) ∧ (∃ r offsets, getOffset' s i = .ok (-1, r, offsets)) ∨
      ¬ (i = -1 ∧ cachesStart s = true) ∧ getOffset' s i = .error .invalidArgument := by
  obtain ⟨bytes, -, pairs, cached⟩ := represents
  obtain ⟨sstring, slength, soffsets⟩ := s
  dsimp only at bytes pairs cached
  subst bytes
  have front : prev (encode points) (offset points 0) = .ok (-1) := prev_start _
  cases soffsets with
  | nil =>
    have start := @getBOffset_beyond points 0 ((encode points).length + 2) i (Nat.zero_le _)
      (Or.inl negative) (by have := length_le_encode points; omega)
    rw [offset_zero, show ((0 : Nat) : Int) = 0 from rfl] at start
    refine Or.inr ⟨by simp [cachesStart], ?_⟩
    unfold getOffset'
    simp only [start, bind, Except.bind]
  | cons p1 rest =>
    obtain ⟨c1, cached1, rfl⟩ := cached p1 List.mem_cons_self
    cases rest with
    | nil =>
      unfold getOffset' fromPair
      simp only [bind, Except.bind]
      rw [if_neg (by omega), if_neg (by omega)]
      by_cases back : i - c1 = -1
      · obtain rfl : c1 = 0 := by omega
        refine Or.inl ⟨⟨by omega, by simp [cachesStart]⟩, ?_⟩
        rw [if_pos back, front]
        dsimp only
        rw [if_neg (by omega)]
        exact ⟨_, _, rfl⟩
      · refine Or.inr ⟨?_, ?_⟩
        · simp only [cachesStart, List.any_cons, List.any_nil, Bool.or_false, decide_eq_true_eq]
          omega
        · rw [if_neg back, stepsFrom_negative negative]
    | cons p2 rest =>
      obtain ⟨c2, cached2, rfl⟩ := cached p2 (List.mem_cons_of_mem _ List.mem_cons_self)
      obtain rfl : rest = [] := by
        simp only [List.length_cons] at pairs
        exact List.length_eq_zero_iff.mp (by omega)
      unfold getOffset'
      simp only [bind, Except.bind]
      rw [if_neg (by omega), if_neg (by omega), if_neg (by omega), if_neg (by omega)]
      by_cases back1 : i - c1 = -1
      · obtain rfl : c1 = 0 := by omega
        refine Or.inl ⟨⟨by omega, by simp [cachesStart]⟩, ?_⟩
        rw [if_pos back1, front]
        exact ⟨_, _, rfl⟩
      · rw [if_neg back1]
        by_cases back2 : i - c2 = -1
        · obtain rfl : c2 = 0 := by omega
          refine Or.inl ⟨⟨by omega, by simp [cachesStart]⟩, ?_⟩
          rw [if_pos back2, front]
          exact ⟨_, _, rfl⟩
        · refine Or.inr ⟨?_, ?_⟩
          · simp only [cachesStart, List.any_cons, List.any_nil, Bool.or_false,
              Bool.or_eq_true, decide_eq_true_eq]
            omega
          · rw [if_neg back2]
            split <;> rw [stepsFrom_negative negative]

theorem getOffset_negative {s : VString} (represents : Represents s points) {i : Int}
    (negative : i < 0) :
    (getOffset s i).1 =
      if i = -1 ∧ cachesStart s = true then .ok (-1) else .error .invalidArgument := by
  unfold getOffset
  rcases getOffset'_negative represents negative with ⟨front, r, offsets, got⟩ | ⟨away, got⟩
  · rw [got, if_pos front]
  · rw [got, if_neg away]

theorem fromPair_beyond {i : Int} {c1 : Nat} (cached : c1 ≤ points.length)
    (beyond : points.length < i) :
    fromPair (encode points) i c1 (offset points c1) = .error .invalidArgument := by
  have long := length_le_encode points
  unfold fromPair
  dsimp only
  split_ifs with same step back
  · omega
  · obtain rfl : c1 = points.length := by omega
    rw [offset_length, next_end]
  · omega
  · unfold stepsFrom
    rw [if_pos (by omega)]
    exact getBOffset_beyond cached (Or.inr (by omega)) (by omega)

/-- Behind the text there is no character. -/
theorem getOffset'_beyond {s : VString} (represents : Represents s points) {i : Int}
    (beyond : points.length < i) : getOffset' s i = .error .invalidArgument := by
  obtain ⟨bytes, -, pairs, cached⟩ := represents
  obtain ⟨sstring, slength, soffsets⟩ := s
  dsimp only at bytes pairs cached
  subst bytes
  have long := length_le_encode points
  cases soffsets with
  | nil =>
    have start := @getBOffset_beyond points 0 ((encode points).length + 2) i (Nat.zero_le _)
      (Or.inr (by omega)) (by omega)
    rw [offset_zero, show ((0 : Nat) : Int) = 0 from rfl] at start
    unfold getOffset'
    simp only [start, bind, Except.bind]
  | cons p1 rest =>
    obtain ⟨c1, cached1, rfl⟩ := cached p1 List.mem_cons_self
    cases rest with
    | nil =>
      unfold getOffset'
      simp only [fromPair_beyond cached1 beyond, bind, Except.bind]
    | cons p2 rest =>
      obtain ⟨c2, cached2, rfl⟩ := cached p2 (List.mem_cons_of_mem _ List.mem_cons_self)
      obtain rfl : rest = [] := by
        simp only [List.length_cons] at pairs
        exact List.length_eq_zero_iff.mp (by omega)
      have far1 : stepsFrom (encode points) i (i - c1) (offset points c1) =
          .error .invalidArgument := by
        unfold stepsFrom
        rw [if_pos (by omega)]
        exact getBOffset_beyond cached1 (Or.inr (by omega)) (by omega)
      have far2 : stepsFrom (encode points) i (i - c2) (offset points c2) =
          .error .invalidArgument := by
        unfold stepsFrom
        rw [if_pos (by omega)]
        exact getBOffset_beyond cached2 (Or.inr (by omega)) (by omega)
      unfold getOffset'
      simp only [bind, Except.bind]
      split_ifs with same1 same2 step1 step2 back1 back2 far
      · omega
      · omega
      · obtain rfl : c1 = points.length := by omega
        rw [offset_length, next_end]
      · obtain rfl : c2 = points.length := by omega
        rw [offset_length, next_end]
      · omega
      · omega
      · rw [far2]
      · rw [far1]

theorem getOffset_beyond {s : VString} (represents : Represents s points) {i : Int}
    (beyond : points.length < i) : (getOffset s i).1 = .error .invalidArgument := by
  unfold getOffset
  rw [getOffset'_beyond represents beyond]

/-- A failure leaves the string as it is. -/
theorem getOffset_error {s : VString} {i : Int} {e : Failure}
    (failed : (getOffset s i).1 = .error e) : (getOffset s i).2 = s := by
  unfold getOffset at failed ⊢
  cases got : getOffset' s i with
  | error e' => rfl
  | ok found =>
    rw [got] at failed
    cases failed

end Haxe.Source.EvalString
