import Haxe.Source.Std.Int64

/-!
# Division of 64-bit integers

The two loops of `divMod` on the numbers without a sign, and the signs around them.
-/

namespace Haxe.Source.Int64

namespace Wide

theorem value_or (a b : Wide) : (a.or b).value = a.value ||| b.value := by
  unfold value Wide.or
  apply BitVec.eq_of_getLsbD_eq
  intro i bound
  simp only [BitVec.getLsbD_append, BitVec.getLsbD_or]
  split <;> rfl

theorem neq_zero_iff (x : Wide) : x.neq (ofInt 0) = true ↔ x.value.toNat ≠ 0 := by
  have zero : ofInt 0 = ⟨0, 0⟩ := by decide
  rw [zero, toNat_value]
  unfold neq
  simp only [Bool.or_eq_true, bne_iff_ne, Ne, ← BitVec.toNat_inj, toNat_zero]
  omega

theorem toNat_shl_one (x : Wide) (room : x.value.toNat < 2 ^ 63) :
    (x.shl 1).value.toNat = 2 * x.value.toNat := by
  have two : 2 ^ (1 % 64) = 2 := rfl
  rw [value_shl, BitVec.toNat_shiftLeft, toNat_one, Nat.shiftLeft_eq, two]
  omega

theorem toNat_ushr_one (x : Wide) : (x.ushr 1).value.toNat = x.value.toNat / 2 := by
  rw [value_ushr, BitVec.toNat_ushiftRight, toNat_one, Nat.shiftRight_eq_div_pow]

theorem ucompare_nonneg (a b : Wide) :
    (ucompare a b).toInt ≥ 0 ↔ b.value.toNat ≤ a.value.toNat := by
  have := ucompare_neg a b
  omega

theorem isNeg_iff_toNat (x : Wide) : x.isNeg = true ↔ 2 ^ 63 ≤ x.value.toNat := by
  rw [isNeg_iff, toInt_neg_iff]
  omega

/-- The first loop ends with a power of two times the divisor that the modulus does not reach
twice. -/
theorem normalize_ok {modulus : Wide} {d : Nat} (positive : 0 < d)
    (magnitude : modulus.value.toNat ≤ 2 ^ 63) {fuel k : Nat} {divisor mask : Wide}
    (enough : 64 ≤ k + fuel) (divides : divisor.value.toNat = d * 2 ^ k)
    (masks : mask.value.toNat = 2 ^ k) :
    ∃ n divisor' mask', normalize modulus fuel divisor mask = some (divisor', mask') ∧ n ≤ 63 ∧
      divisor'.value.toNat = d * 2 ^ n ∧ mask'.value.toNat = 2 ^ n ∧
      modulus.value.toNat < 2 * (d * 2 ^ n) := by
  have least (n : Nat) : 2 ^ n ≤ d * 2 ^ n := Nat.le_mul_of_pos_left _ positive
  have small : k ≤ 63 := by
    by_contra large
    have : 2 ^ 64 ≤ 2 ^ k := Nat.pow_le_pow_right (by decide) (by omega)
    have := mask.value.isLt
    omega
  induction fuel generalizing k divisor mask with
  | zero => omega
  | succ fuel ih =>
    have leastNow := least k
    unfold normalize
    dsimp only
    by_cases neg : divisor.isNeg = true
    · rw [if_pos neg]
      rw [isNeg_iff_toNat, divides] at neg
      exact ⟨k, divisor, mask, rfl, small, divides, masks, by omega⟩
    · rw [if_neg neg]
      rw [isNeg_iff_toNat, divides] at neg
      have divides' : (divisor.shl 1).value.toNat = d * 2 ^ (k + 1) := by
        rw [toNat_shl_one _ (by omega), divides]
        ring
      have masks' : (mask.shl 1).value.toNat = 2 ^ (k + 1) := by
        rw [toNat_shl_one _ (by omega), masks]
        ring
      have small' : k + 1 ≤ 63 := by
        by_contra large
        have : 2 ^ 64 ≤ 2 ^ (k + 1) := Nat.pow_le_pow_right (by decide) (by omega)
        have := (mask.shl 1).value.isLt
        omega
      by_cases reached : (ucompare divisor modulus).toInt ≥ 0
      · rw [if_pos reached]
        rw [ucompare_nonneg, divides] at reached
        have : d * 2 ^ (k + 1) = 2 * (d * 2 ^ k) := by ring
        have := Nat.two_pow_pos k
        exact ⟨k + 1, _, _, rfl, small', divides', masks', by omega⟩
      · rw [if_neg reached]
        exact ih (by omega) divides' masks' small'

/-- One round of the second loop: the divisor is taken off if it fits. -/
theorem subtract_step {d k fuel c : Nat} {quotient modulus divisor mask : Wide}
    (divides : divisor.value.toNat = d * 2 ^ k) (masks : mask.value.toNat = 2 ^ k)
    (multiple : quotient.value.toNat = 2 ^ (k + 1) * c)
    (less : modulus.value.toNat < 2 * (d * 2 ^ k)) :
    ∃ quotient' modulus' fits, subtract (fuel + 1) quotient modulus divisor mask =
        subtract fuel quotient' modulus' (divisor.ushr 1) (mask.ushr 1) ∧
      quotient'.value.toNat = quotient.value.toNat + 2 ^ k * fits ∧
      modulus.value.toNat = modulus'.value.toNat + d * (2 ^ k * fits) ∧
      modulus'.value.toNat < d * 2 ^ k ∧ (fits = 0 ∨ fits = 1) := by
  have := Nat.two_pow_pos k
  have := modulus.value.isLt
  have := divisor.value.isLt
  have open_ : mask.neq (ofInt 0) = true := (neq_zero_iff mask).mpr (by omega)
  rw [subtract, if_pos open_]
  dsimp only
  by_cases fits : (ucompare modulus divisor).toInt ≥ 0
  · have enough := (ucompare_nonneg _ _).mp fits
    simp only [fits, if_true]
    refine ⟨_, _, 1, rfl, ?_, ?_, ?_, .inr rfl⟩
    · have narrow : 2 ^ k < 2 ^ (k + 1) := Nat.pow_lt_pow_right (by decide) (by omega)
      rw [value_or, BitVec.toNat_or, masks, multiple, ← Nat.two_pow_add_eq_or_of_lt narrow]
      omega
    · rw [value_sub, BitVec.toNat_sub, Nat.mul_one, ← divides]
      omega
    · rw [value_sub, BitVec.toNat_sub]
      omega
  · have short := mt (ucompare_nonneg _ _).mpr fits
    simp only [fits, if_false]
    exact ⟨_, _, 0, rfl, rfl, rfl, by omega, .inl rfl⟩

/-- The second loop adds the quotient to the multiple of twice the mask that it has. -/
theorem subtract_ok {d : Nat} (positive : 0 < d) {k fuel c : Nat}
    {quotient modulus divisor mask : Wide} (enough : k + 2 ≤ fuel)
    (divides : divisor.value.toNat = d * 2 ^ k) (masks : mask.value.toNat = 2 ^ k)
    (multiple : quotient.value.toNat = 2 ^ (k + 1) * c)
    (less : modulus.value.toNat < 2 * (d * 2 ^ k)) :
    ∃ quotient' modulus', subtract fuel quotient modulus divisor mask =
        some (quotient', modulus') ∧
      quotient'.value.toNat = quotient.value.toNat + modulus.value.toNat / d ∧
      modulus'.value.toNat = modulus.value.toNat % d := by
  induction k generalizing fuel c quotient modulus divisor mask with
  | zero =>
    obtain ⟨fuel, rfl⟩ : ∃ rest, fuel = rest + 1 + 1 := ⟨fuel - 2, by omega⟩
    obtain ⟨quotient', modulus', fits, stepped, added, taken, low, -⟩ :=
      @subtract_step d 0 (fuel + 1) c quotient modulus divisor mask divides masks multiple less
    have closed : ¬(mask.ushr 1).neq (ofInt 0) = true := by
      rw [neq_zero_iff, toNat_ushr_one, masks]
      decide
    refine ⟨quotient', modulus', ?_, ?_, ?_⟩
    · rw [stepped, subtract, if_neg closed]
    · rw [added, taken, Nat.pow_zero, Nat.one_mul, Nat.add_mul_div_left _ _ positive,
        Nat.div_eq_of_lt (by omega), Nat.zero_add]
    · rw [taken, Nat.add_mul_mod_self_left, Nat.mod_eq_of_lt (by omega)]
  | succ k ih =>
    obtain ⟨fuel, rfl⟩ : ∃ rest, fuel = rest + 1 := ⟨fuel - 1, by omega⟩
    obtain ⟨quotient', modulus', fits, stepped, added, taken, low, -⟩ :=
      @subtract_step d (k + 1) fuel c quotient modulus divisor mask divides masks multiple less
    have twice : d * 2 ^ (k + 1) = 2 * (d * 2 ^ k) := by ring
    obtain ⟨quotient'', modulus'', done, quotientIs, modulusIs⟩ :=
      @ih fuel (2 * c + fits) quotient' modulus' (divisor.ushr 1) (mask.ushr 1) (by omega)
        (by rw [toNat_ushr_one, divides, twice, Nat.mul_div_cancel_left _ (by decide)])
        (by rw [toNat_ushr_one, masks, Nat.pow_succ, Nat.mul_div_cancel _ (by decide)])
        (by rw [added, multiple]; ring) (by omega)
    refine ⟨quotient'', modulus'', stepped.trans done, ?_, ?_⟩
    · rw [quotientIs, added, taken, Nat.add_mul_div_left _ _ positive]
      omega
    · rw [modulusIs, taken, Nat.add_mul_mod_self_left]

/-- The magnitude that `divMod` takes of an operand. -/
theorem toNat_magnitude (x : Wide) :
    (if x.isNeg then x.neg else x).value.toNat = x.value.toInt.natAbs := by
  have := x.value.isLt
  rw [BitVec.toInt_eq_toNat_cond]
  split_ifs with neg half half
  · rw [isNeg_iff_toNat] at neg
    omega
  · rw [value_neg, BitVec.toNat_neg]
    omega
  · omega
  · rw [isNeg_iff_toNat] at neg
    omega

/-- The sign that `divMod` gives back to a result. -/
theorem value_signed {x : Wide} {n : Nat} (magnitude : x.value.toNat = n) (sign : Bool) :
    (if sign then x.neg else x).value =
      BitVec.ofInt 64 (if sign then -(n : Int) else (n : Int)) := by
  have natural : x.value = BitVec.ofInt 64 (n : Int) := by
    rw [BitVec.ofInt_natCast, ← magnitude, BitVec.ofNat_toNat, BitVec.setWidth_eq]
  cases sign with
  | true =>
    simp only [if_true]
    rw [value_neg, natural, BitVec.ofInt_neg]
  | false => exact natural

theorem signed_natAbs (a : Int) : a = if a < 0 then -(a.natAbs : Int) else (a.natAbs : Int) := by
  split_ifs <;> omega

/-- Truncated division by the magnitudes and the signs. -/
theorem tdiv_signed (a b : Int) :
    a.tdiv b = if (decide (a < 0) != decide (b < 0)) then -((a.natAbs / b.natAbs : Nat) : Int)
      else ((a.natAbs / b.natAbs : Nat) : Int) := by
  conv_lhs => rw [signed_natAbs a, signed_natAbs b]
  by_cases neg : a < 0 <;> by_cases neg' : b < 0 <;>
    simp only [neg, neg', if_true, if_false, decide_true, decide_false, bne_self_eq_false,
      Bool.true_bne, Bool.false_bne, Bool.not_false, Bool.false_eq_true, Int.neg_tdiv,
      Int.tdiv_neg, Int.neg_neg, Int.ofNat_tdiv]

theorem tmod_signed (a b : Int) :
    a.tmod b = if a < 0 then -((a.natAbs % b.natAbs : Nat) : Int)
      else ((a.natAbs % b.natAbs : Nat) : Int) := by
  conv_lhs => rw [signed_natAbs a, signed_natAbs b]
  by_cases neg : a < 0 <;> by_cases neg' : b < 0 <;>
    simp only [neg, neg', if_true, if_false, Int.neg_tmod, Int.tmod_neg, Int.ofNat_tmod]

theorem natAbs_le (x : BitVec 64) : x.toInt.natAbs ≤ 2 ^ 63 := by
  have := x.isLt
  rw [BitVec.toInt_eq_toNat_cond]
  split_ifs <;> omega

theorem isNeg_decide (x : Wide) : x.isNeg = decide (x.value.toInt < 0) := by
  rw [Bool.eq_iff_iff, isNeg_iff, decide_eq_true_iff]

theorem value_eq_zero_iff (x : Wide) : x.value = 0 ↔ x.high = 0 ∧ x.low = 0 := by
  have zero : (0 : BitVec 64) = (⟨0, 0⟩ : Wide).value := by decide
  rw [zero, value_inj, mk.injEq]

/-- The result of a division by a divisor other than zero. -/
structure Divides (dividend divisor : Wide) (quotient modulus : Wide) : Prop where
  quotient_is : quotient.value =
    BitVec.ofInt 64 (dividend.value.toInt.tdiv divisor.value.toInt)
  modulus_is : modulus.value.toInt = dividend.value.toInt.tmod divisor.value.toInt

theorem divMod_zero (fuel : Nat) {dividend divisor : Wide} (zero : divisor.value = 0) :
    divMod fuel dividend divisor = some (.error "divide by zero") := by
  unfold divMod
  rw [if_pos ((value_eq_zero_iff divisor).mp zero)]

theorem divides_one (dividend : Wide) : Divides dividend ⟨0, 1⟩ dividend (ofInt 0) := by
  have one : (⟨0, 1⟩ : Wide).value.toInt = 1 := by decide
  have zero : (ofInt 0).value.toInt = 0 := by decide
  constructor
  · rw [one, Int.tdiv_one, BitVec.ofInt_toInt]
  · rw [one, zero, Int.tmod_one]

/-- The modulus is small enough that 64 bits hold it with its sign. -/
theorem toInt_tmod {a b : BitVec 64} (other : b ≠ 0) :
    (BitVec.ofInt 64 (a.toInt.tmod b.toInt)).toInt = a.toInt.tmod b.toInt := by
  have nonzero : b.toInt ≠ 0 := by
    intro zero
    apply other
    rw [← BitVec.toInt_inj, zero]
    decide
  have less := Int.natAbs_tmod a.toInt b.toInt
  have below : a.toInt.natAbs % b.toInt.natAbs < b.toInt.natAbs := Nat.mod_lt _ (by omega)
  have magnitude := natAbs_le b
  rw [BitVec.toInt_ofInt]
  apply Int.bmod_eq_of_le <;> omega

/-- Both loops of `divMod` end within 65 rounds. -/
theorem divMod_ok {fuel : Nat} (enough : 65 ≤ fuel) {dividend divisor : Wide}
    (other : divisor.value ≠ 0) :
    ∃ quotient modulus, divMod fuel dividend divisor = some (.ok (quotient, modulus)) ∧
      Divides dividend divisor quotient modulus := by
  unfold divMod
  rw [if_neg (mt (value_eq_zero_iff divisor).mpr other)]
  by_cases one : divisor.high = 0 ∧ divisor.low = 1
  · rw [if_pos one]
    have known : divisor = ⟨0, 1⟩ := by
      rw [← one.1, ← one.2]
    exact ⟨_, _, rfl, known ▸ divides_one dividend⟩
  · rw [if_neg one]
    have nonzero : divisor.value.toInt ≠ 0 := by
      intro zero
      apply other
      rw [← BitVec.toInt_inj, zero]
      decide
    have positive : 0 < divisor.value.toInt.natAbs := by omega
    have unit : (ofInt 1).value.toNat = 2 ^ 0 := by decide
    have none_ : (ofInt 0).value.toNat = 0 := by decide
    have modulusIs := toNat_magnitude dividend
    obtain ⟨n, divisor', mask', normalized, bound, divides, masks, less⟩ :=
      @normalize_ok (if dividend.isNeg then dividend.neg else dividend) _ positive
        (by rw [modulusIs]; exact natAbs_le _) fuel 0
        (if divisor.isNeg then divisor.neg else divisor) (ofInt 1) (by omega)
        (by rw [toNat_magnitude, Nat.pow_zero, Nat.mul_one]) unit
    obtain ⟨quotient, modulus, subtracted, quotientIs, remainderIs⟩ :=
      @subtract_ok _ positive n fuel 0 (ofInt 0) _ divisor' mask' (by omega) divides masks
        (by rw [none_, Nat.mul_zero]) less
    refine ⟨if dividend.isNeg != divisor.isNeg then quotient.neg else quotient,
      if dividend.isNeg then modulus.neg else modulus, ?_, ?_, ?_⟩
    · dsimp only [Bind.bind, Option.bind]
      rw [normalized]
      dsimp only
      rw [subtracted]
      rfl
    · rw [none_, Nat.zero_add, modulusIs] at quotientIs
      rw [value_signed quotientIs, tdiv_signed, isNeg_decide, isNeg_decide]
    · rw [modulusIs] at remainderIs
      rw [value_signed remainderIs, ← toInt_tmod other, tmod_signed, isNeg_decide]
      simp only [decide_eq_true_eq]

end Wide

end Haxe.Source.Int64
