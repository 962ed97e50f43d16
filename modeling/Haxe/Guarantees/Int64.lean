import Mathlib.Tactic.SplitIfs
import Haxe.Source.Std.Int64Division
import Haxe.Source.Std.Int64Text

/-!
# Two words are one 64-bit integer

Every operation of `haxe.Int64` is the one on the number that the words spell, and `divMod`
divides for every divisor other than zero.
-/

namespace Haxe.Guarantees.Int64Arithmetic

open Source.Int64 Wide

/-- What the operations on words give, by the numbers that the words spell. -/
structure Arithmetic (a b : Wide) (count : BitVec 32) : Prop where
  add : (a.add b).value = a.value + b.value
  sub : (a.sub b).value = a.value - b.value
  neg : a.neg.value = -a.value
  mul : (a.mul b).value = a.value * b.value
  shl : (a.shl count).value = a.value <<< (count.toNat % 64)
  shr : (a.shr count).value = a.value.sshiftRight (count.toNat % 64)
  ushr : (a.ushr count).value = a.value >>> (count.toNat % 64)
  compare : (compare a b).toInt.sign = (a.value.toInt - b.value.toInt).sign
  ucompare : (ucompare a b).toInt.sign = ((a.value.toNat : Int) - b.value.toNat).sign
  preIncrement : a.preIncrement.value = a.value + 1
  postIncrement : a.postIncrement.1 = a ∧ a.postIncrement.2.value = a.value + 1
  preDecrement : a.preDecrement.value = a.value - 1
  postDecrement : a.postDecrement.1 = a ∧ a.postDecrement.2.value = a.value - 1

/-- Truncated division: the quotient, and the modulus with the sign of the dividend. -/
structure Truncated (dividend divisor quotient modulus : BitVec 64) : Prop where
  quotient_is : quotient = BitVec.ofInt 64 (dividend.toInt.tdiv divisor.toInt)
  modulus_is : modulus.toInt = dividend.toInt.tmod divisor.toInt
  together : dividend = quotient * divisor + modulus
  small : modulus.toInt.natAbs < divisor.toInt.natAbs
  sign : modulus.toInt = 0 ∨ modulus.toInt.sign = dividend.toInt.sign

/-- `divMod` with enough fuel for both of its loops. -/
structure Division (fuel : Nat) (dividend divisor : Wide) : Prop where
  zero : divisor.value = 0 → divMod fuel dividend divisor = some (.error "divide by zero")
  other : divisor.value ≠ 0 → ∃ quotient modulus,
    divMod fuel dividend divisor = some (.ok (quotient, modulus)) ∧
      Truncated dividend.value divisor.value quotient.value modulus.value

theorem sign_eq_sign {x y : Int} (negative : x < 0 ↔ y < 0) (zero : x = 0 ↔ y = 0) :
    x.sign = y.sign := by
  rcases Int.lt_trichotomy x 0 with below | equal | above
  · rw [Int.sign_eq_neg_one_of_neg below, Int.sign_eq_neg_one_of_neg (negative.mp below)]
  · rw [equal, zero.mp equal]
  · rw [Int.sign_eq_one_of_pos above, Int.sign_eq_one_of_pos (by omega)]

theorem toInt_eq_zero_iff {w : Nat} (x : BitVec w) : x.toInt = 0 ↔ x = 0 := by
  rw [← BitVec.toInt_inj]
  exact iff_of_eq (congrArg _ BitVec.toInt_zero.symm)

theorem arithmetic (a b : Wide) (count : BitVec 32) : Arithmetic a b count where
  add := value_add a b
  sub := value_sub a b
  neg := value_neg a
  mul := value_mul a b
  shl := value_shl a count
  shr := value_shr a count
  ushr := value_ushr a count
  compare := by
    apply sign_eq_sign
    · rw [compare_neg]
      omega
    · rw [toInt_eq_zero_iff, compare_zero, ← BitVec.toInt_inj]
      omega
  ucompare := by
    apply sign_eq_sign
    · rw [ucompare_neg]
      omega
    · rw [toInt_eq_zero_iff, ucompare_zero, ← BitVec.toNat_inj]
      omega
  preIncrement := value_preIncrement a
  postIncrement := ⟨rfl, value_preIncrement a⟩
  preDecrement := value_preDecrement a
  postDecrement := ⟨rfl, value_preDecrement a⟩

/-- Quotient and modulus give the dividend back, modulo 2^64. -/
theorem divides_truncated {dividend divisor quotient modulus : Wide} (other : divisor.value ≠ 0)
    (divided : Divides dividend divisor quotient modulus) :
    Truncated dividend.value divisor.value quotient.value modulus.value where
  quotient_is := divided.quotient_is
  modulus_is := divided.modulus_is
  together := by
    have modulusIs : modulus.value =
        BitVec.ofInt 64 (dividend.value.toInt.tmod divisor.value.toInt) := by
      rw [← divided.modulus_is, BitVec.ofInt_toInt]
    have divisorIs : divisor.value = BitVec.ofInt 64 divisor.value.toInt :=
      BitVec.ofInt_toInt.symm
    calc dividend.value = BitVec.ofInt 64 dividend.value.toInt := BitVec.ofInt_toInt.symm
      _ = BitVec.ofInt 64 (dividend.value.toInt.tdiv divisor.value.toInt * divisor.value.toInt +
          dividend.value.toInt.tmod divisor.value.toInt) := by
        rw [Int.mul_comm, Int.mul_tdiv_add_tmod]
      _ = quotient.value * divisor.value + modulus.value := by
        rw [BitVec.ofInt_add, BitVec.ofInt_mul, ← divisorIs, ← divided.quotient_is, ← modulusIs]
  small := by
    have nonzero := mt (toInt_eq_zero_iff divisor.value).mp other
    rw [divided.modulus_is, Int.natAbs_tmod]
    exact Nat.mod_lt _ (by omega)
  sign := by
    rw [divided.modulus_is, Int.sign_tmod]
    split_ifs with exact_
    · exact .inl (Int.dvd_iff_tmod_eq_zero.mp exact_)
    · exact .inr rfl

theorem division {fuel : Nat} (enough : 65 ≤ fuel) (dividend divisor : Wide) :
    Division fuel dividend divisor where
  zero := divMod_zero fuel
  other := by
    intro other
    obtain ⟨quotient, modulus, done, divided⟩ := divMod_ok enough other
    exact ⟨quotient, modulus, done, divides_truncated other divided⟩

/-- `haxe.Int64` is two's complement arithmetic of 64 bits. -/
theorem twos_complement (a b : Wide) (count : BitVec 32) :
    Arithmetic a b count ∧ ∀ fuel, 65 ≤ fuel → Division fuel a b :=
  ⟨arithmetic a b count, fun _ enough => division enough a b⟩

/-- The least number divided by minus one. -/
theorem least_by_minus_one :
    Division 65 ⟨0x80000000, 0⟩ ⟨0xFFFFFFFF, 0xFFFFFFFF⟩ :=
  (twos_complement ⟨0x80000000, 0⟩ ⟨0xFFFFFFFF, 0xFFFFFFFF⟩ 1).2 65 (by decide)

end Haxe.Guarantees.Int64Arithmetic

/-!
## Parsing and printing 64-bit integers

`toString` writes every number as its decimal, and `parseString` reads it back. A decimal that
does not fit is refused only where the sign of the sum so far gives it away, since the power of
ten wraps as well.
-/

namespace Haxe.Guarantees.Int64Text

open Source.Int64 Wide

/-- A decimal with white space around it. -/
structure Decimal where
  before : List Char
  negative : Bool
  digits : List Char
  after : List Char
  blank_before : ∀ c ∈ before, isSpace c = true
  blank_after : ∀ c ∈ after, isSpace c = true
  nonempty : digits ≠ []
  valid : ∀ c ∈ digits, c.isDigit = true

namespace Decimal

def body (d : Decimal) : List Char := if d.negative then '-' :: d.digits else d.digits

def text (d : Decimal) : List Char := d.before ++ (d.body ++ d.after)

/-- The integer that a decimal denotes. -/
def value (d : Decimal) : Int :=
  if d.negative then -(valueOf d.digits : Int) else valueOf d.digits

end Decimal

def InRange (n : Int) : Prop := -2 ^ 63 ≤ n ∧ n < 2 ^ 63

instance (n : Int) : Decidable (InRange n) := inferInstanceAs (Decidable (_ ∧ _))

/-- What parsing and printing promise. -/
structure TextMeets (d : Decimal) (x : Wide) : Prop where
  inside : InRange d.value → ∃ y : Wide, parseString d.text = .ok y ∧ y.value.toInt = d.value
  outside : ¬InRange d.value → ∃ message, parseString d.text = .error message
  written : ∀ fuel, 65 ≤ fuel → Wide.toString fuel x = some (.ok (decimal x.value.toInt))
  readBack : parseString (decimal x.value.toInt) = .ok x

/-! ## White space -/

theorem dropWhile_blank {blank rest : List Char} {c : Char}
    (all : ∀ c ∈ blank, isSpace c = true) (other : isSpace c = false) :
    (blank ++ c :: rest).dropWhile isSpace = c :: rest := by
  rw [List.dropWhile_append_of_pos all, List.dropWhile_cons_of_neg (by rw [other]; decide)]

theorem trim_of_blank {before after front rest : List Char} {c c' : Char}
    (blank : ∀ c ∈ before, isSpace c = true) (blank' : ∀ c ∈ after, isSpace c = true)
    (first : isSpace c = false) (last : isSpace c' = false) (same : c :: rest = front ++ [c']) :
    trim (before ++ (c :: rest ++ after)) = c :: rest := by
  have reversed : (before ++ (c :: rest ++ after)).reverse =
      after.reverse ++ c' :: (front.reverse ++ before.reverse) := by
    rw [same]
    simp
  have front_ : (c' :: (front.reverse ++ before.reverse)).reverse = before ++ c :: rest := by
    rw [same]
    simp
  have blankBack : ∀ c ∈ after.reverse, isSpace c = true :=
    fun c member => blank' c (List.mem_reverse.mp member)
  rw [trim, reversed, dropWhile_blank blankBack last, front_, dropWhile_blank blank first]

theorem not_space_of_digit {c : Char} (digit : c.isDigit = true) : isSpace c = false := by
  have between : 48 ≤ c.toNat ∧ c.toNat ≤ 57 := Char.isDigit_iff_toNat.mp digit
  unfold isSpace
  simp
  omega

theorem not_space_of_minus : isSpace '-' = false := by decide

theorem ne_minus_of_digit {c : Char} (digit : c.isDigit = true) : c ≠ '-' := by
  rintro rfl
  exact absurd digit (by decide)

namespace Decimal

variable (d : Decimal)

theorem trim_text : trim d.text = d.body := by
  obtain ⟨c, rest, first⟩ := List.exists_cons_of_ne_nil d.nonempty
  obtain ⟨front, c', last⟩ := (List.eq_nil_or_concat d.digits).resolve_left d.nonempty
  have firstDigit := d.valid c (first ▸ List.mem_cons_self)
  rw [List.concat_eq_append] at last
  have lastDigit := d.valid c' (last ▸ List.mem_append_right _ List.mem_cons_self)
  unfold text body
  by_cases negative : d.negative = true
  · rw [if_pos negative]
    have split : '-' :: d.digits = ('-' :: front) ++ [c'] := by rw [last, List.cons_append]
    exact trim_of_blank d.blank_before d.blank_after not_space_of_minus
      (not_space_of_digit lastDigit) split
  · rw [if_neg negative, first]
    exact trim_of_blank d.blank_before d.blank_after (not_space_of_digit firstDigit)
      (not_space_of_digit lastDigit) (by rw [← first, last])

theorem parseString_text :
    parseString d.text = (parseDigits d.negative d.digits).map Prod.fst := by
  obtain ⟨c, rest, first⟩ := List.exists_cons_of_ne_nil d.nonempty
  have other := ne_minus_of_digit (d.valid c (first ▸ List.mem_cons_self))
  unfold parseString
  rw [trim_text, body]
  dsimp only
  by_cases negative : d.negative = true
  · rw [if_pos negative, negative]
    rfl
  · have sign : decide ((c :: rest).head? = some '-') = false :=
      decide_eq_false fun same => other (Option.some.inj same)
    rw [if_neg negative, Bool.eq_false_iff.mpr negative, first, sign]
    rfl

end Decimal

/-! ## Numbers that fit -/

theorem toInt_bitsOf {negative : Bool} {p : Nat}
    (fits : InRange (if negative then -(p : Int) else p)) :
    (bitsOf negative p).toInt = if negative then -(p : Int) else p := by
  unfold InRange at fits
  unfold bitsOf
  cases negative with
  | true =>
    rw [if_pos rfl] at fits ⊢
    rw [if_pos rfl, BitVec.toInt_eq_toNat_cond, BitVec.toNat_neg, BitVec.toNat_ofNat]
    split <;> omega
  | false =>
    rw [if_neg Bool.false_ne_true] at fits ⊢
    rw [if_neg Bool.false_ne_true, BitVec.toInt_eq_toNat_cond, BitVec.toNat_ofNat]
    split <;> omega

theorem valueOf_pos {c : Char} (digits : List Char) (digit : c.isDigit = true)
    (other : c ≠ '0') : 0 < valueOf (c :: digits) := by
  have between : 48 ≤ c.toNat ∧ c.toNat ≤ 57 := Char.isDigit_iff_toNat.mp digit
  have apart : c.toNat ≠ '0'.toNat := fun same => other (Char.toNat_inj.mp same)
  have more : 0 < c.toNat - '0'.toNat := by
    have zero : '0'.toNat = 48 := rfl
    omega
  rw [valueOf_cons]
  exact Nat.add_pos_left (Nat.mul_pos (Nat.pow_pos (by decide)) more) _

theorem inRange_mono {negative : Bool} {p q : Nat} (less : p ≤ q)
    (fits : InRange (if negative then -(q : Int) else q)) :
    InRange (if negative then -(p : Int) else p) := by
  unfold InRange at *
  cases negative with
  | true =>
    rw [if_pos rfl] at *
    omega
  | false =>
    rw [if_neg Bool.false_ne_true] at *
    omega

theorem not_overflows {negative : Bool} {p : Nat} (positive : 0 < p)
    (fits : InRange (if negative then -(p : Int) else p)) : ¬Overflows negative p := by
  unfold InRange at fits
  unfold Overflows
  cases negative with
  | true =>
    rw [if_pos rfl] at *
    omega
  | false =>
    rw [if_neg Bool.false_ne_true] at *
    omega

/-- The digits of a number that fits never give an overflow away. -/
theorem unnoticed_of_inRange {negative : Bool} {digits : List Char}
    (valid : ∀ c ∈ digits, c.isDigit = true)
    (fits : InRange (if negative then -(valueOf digits : Int) else valueOf digits)) :
    ¬Noticed negative digits := by
  induction digits with
  | nil => exact id
  | cons c digits ih =>
    have whole := valueOf_cons c digits
    have less : valueOf digits ≤ valueOf (c :: digits) := by omega
    rintro (later | ⟨other, overflows⟩)
    · refine ih (fun c' member => valid c' (List.mem_cons_of_mem c member)) ?_ later
      exact inRange_mono less fits
    · exact not_overflows (valueOf_pos digits (valid c List.mem_cons_self) other) fits overflows

/-- Digits are parsed exactly where the number fits or an overflow is noticed. -/
theorem parse_iff (d : Decimal) :
    ((InRange d.value → ∃ y : Wide, parseString d.text = .ok y ∧ y.value.toInt = d.value) ∧
      (¬InRange d.value → ∃ message, parseString d.text = .error message)) ↔
    InRange d.value ∨ Noticed d.negative d.digits := by
  rw [d.parseString_text]
  have spec := @parseDigits_spec d.negative d.digits d.valid
  rcases spec with ⟨noticed, message, thrown⟩ |
    ⟨unnoticed, current, multiplier, done, currentIs, -⟩
  · rw [thrown]
    refine iff_of_true ⟨fun fits => ?_, fun _ => ⟨message, rfl⟩⟩ (.inr noticed)
    exact absurd noticed (unnoticed_of_inRange d.valid fits)
  · rw [done]
    constructor
    · intro meets
      by_contra neither
      obtain ⟨message, thrown⟩ := meets.2 fun fits => neither (.inl fits)
      cases thrown
    · intro either
      have fits := either.resolve_right unnoticed
      refine ⟨fun _ => ⟨current, rfl, ?_⟩, fun beyond => absurd fits beyond⟩
      rw [currentIs]
      exact toInt_bitsOf fits

/-! ## Printed numbers -/

/-- The decimal of a number, as a text that is parsed. -/
def printed (n : Int) : Decimal where
  before := []
  negative := n < 0
  digits := Nat.toDigits 10 n.natAbs
  after := []
  blank_before _ member := absurd member List.not_mem_nil
  blank_after _ member := absurd member List.not_mem_nil
  nonempty := Nat.toDigits_ne_nil
  valid _ member := Nat.isDigit_of_mem_toDigits (by decide) (by decide) member

theorem printed_text (n : Int) : (printed n).text = decimal n := by
  rw [decimal_eq, Decimal.text, Decimal.body]
  simp [printed]

theorem printed_value (n : Int) : (printed n).value = n := by
  have digits : valueOf (Nat.toDigits 10 n.natAbs) = n.natAbs := Nat.ofDigitChars_ten_toDigits
  unfold Decimal.value printed
  dsimp only
  rw [digits]
  by_cases below : n < 0
  · rw [if_pos (decide_eq_true below)]
    omega
  · rw [if_neg (by rw [decide_eq_false below]; decide)]
    omega

theorem inRange_toInt (x : BitVec 64) : InRange x.toInt := by
  have := x.isLt
  unfold InRange
  rw [BitVec.toInt_eq_toNat_cond]
  split <;> omega

theorem readBack_decimal (x : Wide) : parseString (decimal x.value.toInt) = .ok x := by
  have fits := inRange_toInt x.value
  rw [← printed_value x.value.toInt] at fits
  obtain ⟨y, parsed, same⟩ := ((parse_iff _).mpr (.inl fits)).1 fits
  rw [printed_value] at same
  rw [← printed_text, parsed, value_inj.mp (BitVec.toInt_inj.mp same)]

theorem text_iff (d : Decimal) (x : Wide) :
    TextMeets d x ↔ InRange d.value ∨ Noticed d.negative d.digits := by
  constructor
  · intro meets
    exact (parse_iff d).mp ⟨meets.inside, meets.outside⟩
  · intro either
    obtain ⟨inside, outside⟩ := (parse_iff d).mpr either
    exact ⟨inside, outside, fun _ enough => toString_ok enough x, readBack_decimal x⟩

/-- 2^64 is read as zero: the sign of the sum does not change on the way. -/
theorem reads_two_pow_64 : ¬∀ (d : Decimal) (x : Wide), TextMeets d x := by
  intro always
  have beyond : ¬InRange (printed 18446744073709551616).value := by
    rw [printed_value]
    decide
  obtain ⟨message, thrown⟩ := (always (printed 18446744073709551616) ⟨0, 0⟩).outside beyond
  rw [printed_text] at thrown
  have read : parseString (decimal 18446744073709551616) = .ok ⟨0, 0⟩ := by decide +kernel
  rw [read] at thrown
  cases thrown

end Haxe.Guarantees.Int64Text
