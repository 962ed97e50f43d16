import Mathlib.Algebra.Ring.Nat
import Mathlib.Data.List.Basic

/-!
# Digits as strings of bits

The lowest bits of a word, the highest one in front, and the bits of a list of digits of one width.
The bits of a number, the lowest one in front.
-/

namespace Haxe.Theory.BitStrings

/-- The `k` lowest bits. -/
@[grind =] def lowBits {w : Nat} : Nat → BitVec w → List Bool
  | 0, _ => []
  | k + 1, x => x.getLsbD k :: lowBits k x

/-- The bits of some digits of `k` bits each. -/
def bitsOf {w : Nat} (k : Nat) (digits : List (BitVec w)) : List Bool :=
  digits.flatMap fun x => lowBits k x

variable {v w k m : Nat}

@[simp] theorem length_lowBits (k : Nat) (x : BitVec w) : (lowBits k x).length = k := by
  induction k with
  | zero => rfl
  | succ k ih => rw [lowBits, List.length_cons, ih]

theorem lowBits_congr {x : BitVec v} {y : BitVec w}
    (same : ∀ i, i < k → x.getLsbD i = y.getLsbD i) : lowBits k x = lowBits k y := by
  induction k with
  | zero => rfl
  | succ k ih =>
    rw [lowBits, lowBits, same k (by omega), ih fun i below => same i (by omega)]

theorem getLsbD_of_lowBits {x : BitVec v} {y : BitVec w} (same : lowBits k x = lowBits k y)
    {i : Nat} (below : i < k) : x.getLsbD i = y.getLsbD i := by
  induction k with
  | zero => omega
  | succ k ih =>
    obtain ⟨first, others⟩ := List.cons.inj same
    by_cases top : i = k
    · rw [top]
      exact first
    · exact ih others (by omega)

/-- The high bits stand in front of the low ones. -/
theorem lowBits_add (k m : Nat) (x : BitVec w) :
    lowBits (k + m) x = lowBits k (x >>> m) ++ lowBits m x := by
  induction k with
  | zero => rw [Nat.zero_add, lowBits, List.nil_append]
  | succ k ih =>
    rw [Nat.succ_add, lowBits, ih, lowBits, List.cons_append, BitVec.getLsbD_ushiftRight,
      Nat.add_comm m k]

theorem lowBits_zero (k : Nat) : lowBits k 0#w = List.replicate k false := by
  induction k with
  | zero => rfl
  | succ k ih =>
    rw [lowBits, ih, List.replicate_succ]
    congr 1
    exact BitVec.getLsbD_zero

@[simp] theorem bitsOf_cons (k : Nat) (x : BitVec w) (xs : List (BitVec w)) :
    bitsOf k (x :: xs) = lowBits k x ++ bitsOf k xs := rfl

theorem bitsOf_append (k : Nat) (xs ys : List (BitVec w)) :
    bitsOf k (xs ++ ys) = bitsOf k xs ++ bitsOf k ys := List.flatMap_append

@[simp] theorem length_bitsOf (k : Nat) (xs : List (BitVec w)) :
    (bitsOf k xs).length = k * xs.length := by
  induction xs with
  | nil => rfl
  | cons x xs ih =>
    rw [bitsOf_cons, List.length_append, length_lowBits, ih, List.length_cons, Nat.mul_succ,
      Nat.add_comm]

/-- Digits are given by their bits. -/
theorem bitsOf_injective {xs ys : List (BitVec w)} (same : bitsOf w xs = bitsOf w ys)
    (lengths : xs.length = ys.length) : xs = ys := by
  induction xs generalizing ys with
  | nil => exact (List.length_eq_zero_iff.mp lengths.symm).symm
  | cons x xs ih =>
    cases ys with
    | nil => cases lengths
    | cons y ys =>
      rw [bitsOf_cons, bitsOf_cons] at same
      obtain ⟨first, others⟩ := List.append_inj same (by rw [length_lowBits, length_lowBits])
      have equal : x = y := BitVec.eq_of_getLsbD_eq fun i below =>
        getLsbD_of_lowBits first below
      rw [equal, ih others (Nat.succ.inj lengths)]

/-! ## The lowest bit in front -/

/-- The `k` lowest bits of a number. -/
@[grind =] def lowFirst : Nat → Nat → List Bool
  | 0, _ => []
  | k + 1, n => (n % 2 == 1) :: lowFirst k (n / 2)

/-- The number of some bits. -/
@[grind =] def ofLowFirst : List Bool → Nat
  | [] => 0
  | b :: bs => b.toNat + 2 * ofLowFirst bs

@[simp] theorem length_lowFirst (k n : Nat) : (lowFirst k n).length = k := by
  induction k generalizing n with
  | zero => rfl
  | succ k ih => rw [lowFirst, List.length_cons, ih]

theorem ofLowFirst_lowFirst (k n : Nat) : ofLowFirst (lowFirst k n) = n % 2 ^ k := by
  induction k generalizing n with
  | zero => rw [Nat.pow_zero, Nat.mod_one, lowFirst, ofLowFirst]
  | succ k ih =>
    rw [lowFirst, ofLowFirst, ih, Nat.pow_succ', Nat.mod_mul]
    congr 1
    rcases Nat.mod_two_eq_zero_or_one n with h | h <;> rw [h] <;> rfl

theorem lowFirst_ofLowFirst (bs : List Bool) : lowFirst bs.length (ofLowFirst bs) = bs := by
  induction bs with
  | nil => rfl
  | cons b bs ih =>
    rw [List.length_cons, lowFirst, ofLowFirst]
    have half : (b.toNat + 2 * ofLowFirst bs) / 2 = ofLowFirst bs := by
      have := Bool.toNat_lt b
      omega
    have low : ((b.toNat + 2 * ofLowFirst bs) % 2 == 1) = b := by
      rw [Nat.add_mul_mod_self_left]
      cases b <;> rfl
    rw [half, low, ih]

/-- The low bits stand in front of the high ones. -/
theorem lowFirst_add (j k n : Nat) :
    lowFirst (j + k) n = lowFirst j n ++ lowFirst k (n / 2 ^ j) := by
  induction j generalizing n with
  | zero => rw [Nat.zero_add, Nat.pow_zero, Nat.div_one, lowFirst, List.nil_append]
  | succ j ih =>
    rw [Nat.succ_add, lowFirst, ih, lowFirst, List.cons_append, Nat.div_div_eq_div_mul,
      Nat.pow_succ']

theorem lowFirst_append {j n : Nat} (small : n < 2 ^ j) (k high : Nat) :
    lowFirst (j + k) (n + high * 2 ^ j) = lowFirst j n ++ lowFirst k high := by
  have low : lowFirst j (n + high * 2 ^ j) = lowFirst j n := by
    have value : ofLowFirst (lowFirst j (n + high * 2 ^ j)) = ofLowFirst (lowFirst j n) := by
      rw [ofLowFirst_lowFirst, ofLowFirst_lowFirst, Nat.add_mul_mod_self_right]
    have back := congrArg (lowFirst j) value
    have first := lowFirst_ofLowFirst (lowFirst j (n + high * 2 ^ j))
    have second := lowFirst_ofLowFirst (lowFirst j n)
    rw [length_lowFirst] at first second
    rw [← first, back, second]
  rw [lowFirst_add, low, Nat.add_mul_div_right _ _ (Nat.two_pow_pos j), Nat.div_eq_of_lt small,
    Nat.zero_add]

end Haxe.Theory.BitStrings
