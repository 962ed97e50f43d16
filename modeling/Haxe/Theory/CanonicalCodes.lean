import Mathlib.Algebra.Ring.Nat
import Mathlib.Data.List.Basic
import Mathlib.Data.List.Count

/-!
# Canonical prefix codes

The code that is given by the lengths of its words, 0 for a symbol without one: words of one length
are consecutive numbers in the order of their symbols, behind the words of smaller lengths.
-/

namespace Haxe.Theory.CanonicalCodes

/-- The bits of a word, the highest one in front. -/
def highFirst : Nat → Nat → List Bool
  | 0, _ => []
  | k + 1, n => (n / 2 ^ k % 2 == 1) :: highFirst k n

/-- The number of words of a length. -/
def used (lengths : List Nat) (k : Nat) : Nat := if k = 0 then 0 else lengths.count k

/-- The first word of a length. -/
@[grind =] def first (lengths : List Nat) : Nat → Nat
  | 0 => 0
  | k + 1 => 2 * (first lengths k + used lengths k)

/-- The word of a symbol. -/
def code (lengths : List Nat) (s : Nat) : Nat :=
  first lengths (lengths[s]?.getD 0) + (lengths.take s).count (lengths[s]?.getD 0)

/-- The part that a word takes of those of `k` bits. -/
def share (k length : Nat) : Nat := if 0 < length ∧ length ≤ k then 2 ^ (k - length) else 0

/-- The words of `k` bits that begin with a word of the code. -/
def kraft (k : Nat) : List Nat → Nat
  | [] => 0
  | length :: rest => share k length + kraft k rest

/-- Every word of `k` bits begins with one of the code. -/
def Complete (lengths : List Nat) (k : Nat) : Prop := kraft k lengths = 2 ^ k

variable {lengths : List Nat}

theorem share_succ (k length : Nat) :
    share (k + 1) length = 2 * share k length + if length = k + 1 then 1 else 0 := by
  unfold share
  by_cases within : 0 < length ∧ length ≤ k
  · have deeper : k + 1 - length = k - length + 1 := by omega
    rw [if_pos within, if_pos (by omega), if_neg (by omega), deeper, Nat.pow_succ', Nat.add_zero]
  · by_cases same : length = k + 1
    · rw [if_neg within, if_pos (by omega), if_pos same, same, Nat.sub_self]
      rfl
    · rw [if_neg within, if_neg (by omega), if_neg same]

theorem kraft_succ (k : Nat) (lengths : List Nat) :
    kraft (k + 1) lengths = 2 * kraft k lengths + lengths.count (k + 1) := by
  induction lengths with
  | nil => rfl
  | cons length rest ih =>
    rw [kraft, kraft, ih, share_succ, List.count_cons]
    by_cases same : length = k + 1
    · rw [if_pos same, if_pos (beq_iff_eq.mpr same)]
      omega
    · rw [if_neg same, if_neg (mt beq_iff_eq.mp same)]
      omega

theorem kraft_zero (lengths : List Nat) : kraft 0 lengths = 0 := by
  induction lengths with
  | nil => rfl
  | cons length rest ih =>
    rw [kraft, ih, share, if_neg (by omega)]

/-- The words of a length follow those that begin with a smaller one. -/
theorem first_add_used (lengths : List Nat) (k : Nat) :
    first lengths k + used lengths k = kraft k lengths := by
  induction k with
  | zero => rw [kraft_zero, first, used, if_pos rfl]
  | succ k ih =>
    rw [first, ih, kraft_succ, used, if_neg (Nat.succ_ne_zero k)]

theorem first_succ (lengths : List Nat) (k : Nat) :
    first lengths (k + 1) = 2 * kraft k lengths := by
  rw [first, first_add_used]

theorem first_le_kraft (lengths : List Nat) (k : Nat) : first lengths k ≤ kraft k lengths := by
  rw [← first_add_used]
  exact Nat.le_add_right _ _

/-- The words that begin with a smaller word are in front of a longer one. -/
theorem kraft_le_first (lengths : List Nat) (k j : Nat) :
    2 ^ (j + 1) * kraft k lengths ≤ first lengths (k + j + 1) := by
  induction j with
  | zero =>
    rw [first_succ, Nat.zero_add, Nat.pow_one]
  | succ j ih =>
    rw [first_succ, Nat.pow_succ', Nat.mul_assoc]
    exact Nat.mul_le_mul_left 2 (Nat.le_trans ih (first_le_kraft _ _))

/-- A word that begins with a smaller one stays among those of its length. -/
theorem kraft_le {k m : Nat} (le : k ≤ m) (complete : Complete lengths m) :
    kraft k lengths ≤ 2 ^ k := by
  obtain ⟨j, rfl⟩ := Nat.exists_eq_add_of_le le
  cases j with
  | zero => exact Nat.le_of_eq complete
  | succ j =>
    have bound := Nat.le_trans (kraft_le_first lengths k j) (first_le_kraft lengths (k + j + 1))
    have whole : kraft (k + j + 1) lengths = 2 ^ (k + (j + 1)) := complete
    rw [whole, Nat.pow_add 2 k, Nat.mul_comm] at bound
    exact Nat.le_of_mul_le_mul_right bound (Nat.two_pow_pos _)

section Codes

variable {s l : Nat}

theorem code_eq (length : lengths[s]? = some l) :
    code lengths s = first lengths l + (lengths.take s).count l := by
  unfold code
  rw [length]
  rfl

/-- There are as many words in front as symbols. -/
theorem count_take_lt (length : lengths[s]? = some l) :
    (lengths.take s).count l < lengths.count l := by
  obtain ⟨inside, eq⟩ := List.getElem?_eq_some_iff.mp length
  have parts := congrArg (List.count l) (List.take_append_drop s lengths)
  rw [List.count_append, List.drop_eq_getElem_cons inside, eq, List.count_cons_self] at parts
  omega

theorem code_lt (length : lengths[s]? = some l) (positive : 0 < l) :
    first lengths l ≤ code lengths s ∧ code lengths s < kraft l lengths := by
  have rank := count_take_lt length
  rw [code_eq length, ← first_add_used, used, if_neg (Nat.ne_of_gt positive)]
  omega

/-- The beginning of a word is no word. -/
theorem kraft_le_begin (length : lengths[s]? = some l) {k j : Nat} (eq : l = k + (j + 1)) :
    kraft k lengths ≤ code lengths s / 2 ^ (j + 1) := by
  rw [Nat.le_div_iff_mul_le (Nat.two_pow_pos _), Nat.mul_comm]
  have low := kraft_le_first lengths k j
  rw [code_eq length, eq]
  exact Nat.le_trans low (Nat.le_add_right _ _)

/-- Two symbols have different words. -/
theorem code_injective {s' : Nat} (length : lengths[s]? = some l) (length' : lengths[s']? = some l)
    (same : code lengths s = code lengths s') : s = s' := by
  rw [code_eq length, code_eq length', Nat.add_left_cancel_iff] at same
  have ordered : ∀ {a b : Nat}, lengths[a]? = some l → a < b →
      (lengths.take a).count l < (lengths.take b).count l := by
    intro a b found before
    have prefix_ : lengths.take (a + 1) <+: lengths.take b := List.take_prefix_take_left before
    have more := prefix_.sublist.count_le l
    obtain ⟨inside, eq⟩ := List.getElem?_eq_some_iff.mp found
    rw [List.take_succ_eq_append_getElem inside, List.count_append, eq,
      List.count_singleton_self] at more
    omega
  rcases Nat.lt_trichotomy s s' with before | equal | behind
  · have := ordered length before
    omega
  · exact equal
  · have := ordered length' behind
    omega

/-- Every place among the symbols of a length has its symbol. -/
theorem exists_count {r : Nat} (inside : r < lengths.count l) :
    ∃ s, lengths[s]? = some l ∧ (lengths.take s).count l = r := by
  induction lengths generalizing r with
  | nil => exact absurd inside (Nat.not_lt_zero r)
  | cons length rest ih =>
    rw [List.count_cons] at inside
    by_cases same : length = l
    · cases r with
      | zero => exact ⟨0, congrArg some same, rfl⟩
      | succ r =>
        rw [if_pos (beq_iff_eq.mpr same)] at inside
        obtain ⟨s, found, place⟩ := ih (r := r) (by omega)
        refine ⟨s + 1, found, ?_⟩
        rw [List.take_succ_cons, List.count_cons, place, if_pos (beq_iff_eq.mpr same)]
    · rw [if_neg (mt beq_iff_eq.mp same)] at inside
      obtain ⟨s, found, place⟩ := ih inside
      refine ⟨s + 1, found, ?_⟩
      rw [List.take_succ_cons, List.count_cons, place, if_neg (mt beq_iff_eq.mp same)]
      rfl

/-- Every number between the first word and the last one is the word of a symbol. -/
theorem exists_code {n : Nat} (positive : 0 < l) (low : first lengths l ≤ n)
    (high : n < kraft l lengths) : ∃ s, lengths[s]? = some l ∧ code lengths s = n := by
  rw [← first_add_used, used, if_neg (Nat.ne_of_gt positive)] at high
  obtain ⟨r, rfl⟩ := Nat.exists_eq_add_of_le low
  obtain ⟨s, found, place⟩ := @exists_count lengths l r (by omega)
  exact ⟨s, found, by rw [code_eq found, place]⟩

end Codes

end Haxe.Theory.CanonicalCodes
