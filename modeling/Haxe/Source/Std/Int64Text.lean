import Haxe.Source.Std.Int64Division

/-!
# 64-bit integers as text

`Int64Helper.parseString` and `Int64.toString`, with `StringTools.trim`. A string is the list of
its characters.
-/

namespace Haxe.Source.Int64

/-- `StringTools.isSpace` -/
def isSpace (c : Char) : Bool := (c.toNat > 8 && c.toNat < 14) || c.toNat = 32

/-- `StringTools.trim` -/
def trim (s : List Char) : List Char :=
  ((s.reverse.dropWhile isSpace).reverse).dropWhile isSpace

namespace Wide

/-- A digit other than zero is added, or subtracted from a negative number. -/
@[grind =]
def addDigit (sIsNegative : Bool) (current multiplier digit : Wide) : Except String Wide :=
  if sIsNegative then
    let current := current.sub (multiplier.mul digit)
    if current.isNeg then .ok current else .error "NumberFormatError: Underflow"
  else
    let current := current.add (multiplier.mul digit)
    if current.isNeg then .error "NumberFormatError: Overflow" else .ok current

/-- The body of the loop of `parseString`. -/
@[grind =]
def parseDigit (sIsNegative : Bool) (current multiplier : Wide) (c : Char) : Except String Wide :=
  let digitInt := (c.toNat : Int) - '0'.toNat
  if digitInt < 0 ∨ digitInt > 9 then .error "NumberFormatError"
  else if digitInt ≠ 0 then
    addDigit sIsNegative current multiplier (ofInt (BitVec.ofInt 32 digitInt))
  else .ok current

/-- The loop of `parseString` from the last character to the first, with `current` and
`multiplier` at its end. -/
@[grind =] def parseDigits (sIsNegative : Bool) : List Char → Except String (Wide × Wide)
  | [] => .ok (ofInt 0, ofInt 1)
  | c :: s => do
    let later ← parseDigits sIsNegative s
    let current ← parseDigit sIsNegative later.1 later.2 c
    return (current, later.2.mul (ofInt 10))

@[grind =] def parseString (sParam : List Char) : Except String Wide :=
  let s := trim sParam
  let sIsNegative := decide (s.head? = some '-')
  let s := if sIsNegative then s.drop 1 else s
  (parseDigits sIsNegative s).map Prod.fst

/-- The loop of `toString`; the error of a division is thrown. The loop and those of the
divisions have some fuel. -/
@[grind =]
def toStringLoop (divFuel : Nat) : Nat → Wide → List Char → Option (Except String (List Char))
  | 0, _, _ => none
  | fuel + 1, i, str =>
    if i.neq (ofInt 0) then
      match i.divMod divFuel (ofInt 10) with
      | none => none
      | some (.error e) => some (.error e)
      | some (.ok r) =>
        if r.2.isNeg then
          toStringLoop divFuel fuel r.1.neg ((toString r.2.neg.low.toInt).toList ++ str)
        else toStringLoop divFuel fuel r.1 ((toString r.2.low.toInt).toList ++ str)
    else some (.ok str)

protected def toString (fuel : Nat) (i : Wide) : Option (Except String (List Char)) :=
  if i.neq (ofInt 0) then
    (toStringLoop fuel fuel i []).map fun str =>
      if i.isNeg then str.map ('-' :: ·) else str
  else some (.ok ['0'])

/-! ## Writing -/

/-- The digits of a number, none for zero. -/
def digitsOf (m : Nat) : List Char := if m = 0 then [] else Nat.toDigits 10 m

theorem digitsOf_step {m : Nat} (positive : m ≠ 0) :
    digitsOf m = digitsOf (m / 10) ++ [Nat.digitChar (m % 10)] := by
  rw [digitsOf, if_neg positive, digitsOf]
  by_cases small : m < 10
  · rw [Nat.toDigits_of_lt_base small, if_pos (by omega), Nat.mod_eq_of_lt small]
    rfl
  · rw [Nat.toDigits_of_base_le (by omega) (by omega), if_neg (by omega)]

theorem toString_digit {d : Nat} (small : d < 10) :
    (toString (d : Int)).toList = [Nat.digitChar d] := by
  have every : ∀ d : Fin 10, (toString (d.val : Int)).toList = [Nat.digitChar d.val] := by decide
  exact every ⟨d, small⟩

/-- The low word of a small number is the number. -/
theorem low_of_small {x : Wide} {d : Nat} (small : d < 10) (same : x.value.toInt = d) :
    x.low.toInt = d := by
  have below := x.low.isLt
  rw [toInt_value] at same
  rw [BitVec.toInt_eq_toNat_cond]
  split <;> omega

theorem toInt_tdiv_ten (x : BitVec 64) :
    (BitVec.ofInt 64 (x.toInt.tdiv 10)).toInt = x.toInt.tdiv 10 := by
  have magnitude := natAbs_le x
  have less : (x.toInt.tdiv 10).natAbs = x.toInt.natAbs / 10 := Int.natAbs_tdiv x.toInt 10
  rw [BitVec.toInt_ofInt]
  apply Int.bmod_eq_of_le <;> omega

theorem toInt_neg_small {x : BitVec 64} (small : x.toInt.natAbs < 2 ^ 63) :
    (-x).toInt = -x.toInt := by
  rw [BitVec.toInt_neg]
  apply Int.bmod_eq_of_le <;> omega

theorem zero_of_not_neq {i : Wide} (done : ¬i.neq (ofInt 0) = true) : i.value.toInt = 0 := by
  rw [neq_zero_iff, not_not] at done
  rw [BitVec.toInt_eq_toNat_cond, done]
  rfl

theorem not_neq_of_zero {i : Wide} (zero : i.value.toInt = 0) : ¬i.neq (ofInt 0) = true := by
  rw [neq_zero_iff, not_not, BitVec.toInt_inj.mp (zero.trans BitVec.toInt_zero.symm)]
  rfl

theorem toStringLoop_zero {divFuel fuel : Nat} {i : Wide} (zero : i.value.toInt = 0)
    (rounds : 0 < fuel) (str : List Char) : toStringLoop divFuel fuel i str = some (.ok str) := by
  obtain ⟨fuel, rfl⟩ := Nat.exists_eq_succ_of_ne_zero (show fuel ≠ 0 by omega)
  rw [toStringLoop, if_neg (not_neq_of_zero zero)]

/-- A round of the loop writes the last digit of the magnitude. -/
theorem toStringLoop_step {divFuel : Nat} (enough : 65 ≤ divFuel) (fuel : Nat) {i : Wide}
    (other : i.value.toInt ≠ 0) (str : List Char) :
    ∃ i' : Wide, i'.value.toInt.natAbs = i.value.toInt.natAbs / 10 ∧
      toStringLoop divFuel (fuel + 1) i str =
        toStringLoop divFuel fuel i' (Nat.digitChar (i.value.toInt.natAbs % 10) :: str) := by
  have ten : (ofInt 10).value.toInt = 10 := by decide
  have nonzero : (ofInt 10).value ≠ 0 := by decide
  obtain ⟨quotient, modulus, done, divided⟩ := @divMod_ok divFuel enough i _ nonzero
  have round : i.neq (ofInt 0) = true := not_not.mp (mt zero_of_not_neq other)
  have magnitude := natAbs_le i.value
  have quotientIs : quotient.value.toInt = i.value.toInt.tdiv 10 := by
    rw [divided.quotient_is, ten, toInt_tdiv_ten]
  have modulusIs := divided.modulus_is
  have quotientAbs : (i.value.toInt.tdiv 10).natAbs = i.value.toInt.natAbs / 10 :=
    Int.natAbs_tdiv i.value.toInt 10
  have modulusAbs : (i.value.toInt.tmod 10).natAbs = i.value.toInt.natAbs % 10 :=
    Int.natAbs_tmod i.value.toInt 10
  have digit : i.value.toInt.natAbs % 10 < 10 := Nat.mod_lt _ (by omega)
  rw [ten] at modulusIs
  rw [toStringLoop, if_pos round, done]
  dsimp only
  by_cases negative : modulus.isNeg = true
  · have below := (isNeg_iff modulus).mp negative
    have lowIs : modulus.neg.value.toInt = (i.value.toInt.natAbs % 10 : Nat) := by
      rw [value_neg, toInt_neg_small (by omega)]
      omega
    refine ⟨quotient.neg, ?_, ?_⟩
    · rw [value_neg, toInt_neg_small (by omega), quotientIs, Int.natAbs_neg, quotientAbs]
    · rw [if_pos negative, low_of_small digit lowIs, toString_digit digit]
      rfl
  · have above : ¬modulus.value.toInt < 0 := fun below => negative ((isNeg_iff modulus).mpr below)
    have lowIs : modulus.value.toInt = (i.value.toInt.natAbs % 10 : Nat) := by omega
    refine ⟨quotient, by rw [quotientIs, quotientAbs], ?_⟩
    rw [if_neg negative, low_of_small digit lowIs, toString_digit digit]
    rfl

theorem toStringLoop_ok {divFuel : Nat} (enough : 65 ≤ divFuel) {n fuel : Nat} {i : Wide}
    (short : i.value.toInt.natAbs < 10 ^ n) (rounds : n < fuel) (str : List Char) :
    toStringLoop divFuel fuel i str =
      some (.ok (digitsOf i.value.toInt.natAbs ++ str)) := by
  induction n generalizing fuel i str with
  | zero =>
    have zero : i.value.toInt = 0 := by omega
    rw [toStringLoop_zero zero (by omega), zero]
    rfl
  | succ n ih =>
    by_cases zero : i.value.toInt = 0
    · rw [toStringLoop_zero zero (by omega), zero]
      rfl
    · obtain ⟨fuel, rfl⟩ := Nat.exists_eq_succ_of_ne_zero (show fuel ≠ 0 by omega)
      obtain ⟨i', shorter, step⟩ := toStringLoop_step enough fuel zero str
      have positive : i.value.toInt.natAbs ≠ 0 := by omega
      rw [step, ih (by omega) (by omega), shorter, digitsOf_step positive, List.append_assoc]
      rfl

/-- The canonical decimal of a number. -/
def decimal (n : Int) : List Char := (toString n).toList

theorem decimal_eq (n : Int) :
    decimal n = if n < 0 then '-' :: Nat.toDigits 10 n.natAbs else Nat.toDigits 10 n.natAbs := by
  cases n with
  | ofNat n =>
    have above : ¬Int.ofNat n < 0 := Int.not_lt.mpr (Int.natCast_nonneg n)
    rw [if_neg above]
    exact Nat.toList_repr
  | negSucc n =>
    rw [if_pos (Int.negSucc_lt_zero n)]
    show ("-" ++ (n + 1).repr).toList = _
    rw [String.toList_append, Nat.toList_repr]
    rfl

/-- The text of a number is its decimal, also of the least one. -/
theorem toString_ok {fuel : Nat} (enough : 65 ≤ fuel) (i : Wide) :
    Wide.toString fuel i = some (.ok (decimal i.value.toInt)) := by
  unfold Wide.toString
  by_cases zero : i.value.toInt = 0
  · rw [if_neg (not_neq_of_zero zero), zero]
    rfl
  · have short : i.value.toInt.natAbs < 10 ^ 19 := Nat.lt_of_le_of_lt (natAbs_le _) (by decide)
    have positive : i.value.toInt.natAbs ≠ 0 := by omega
    rw [if_pos (not_not.mp (mt zero_of_not_neq zero)),
      toStringLoop_ok enough short (by omega), List.append_nil, digitsOf, if_neg positive,
      decimal_eq, isNeg_decide]
    by_cases negative : i.value.toInt < 0
    · simp [negative]
      rfl
    · simp [negative]

/-! ## Reading -/

/-- The number that digits stand for. -/
def valueOf (digits : List Char) : Nat := Nat.ofDigitChars 10 digits 0

theorem valueOf_cons (c : Char) (digits : List Char) :
    valueOf (c :: digits) = 10 ^ digits.length * (c.toNat - '0'.toNat) + valueOf digits := by
  rw [valueOf, Nat.ofDigitChars_cons, Nat.ofDigitChars_eq_ofDigitChars_zero, Nat.mul_zero,
    Nat.zero_add]
  rfl

/-- The sign of the 64 bits of a number that has been read so far gives it away. -/
def Overflows (sIsNegative : Bool) (p : Nat) : Prop :=
  if sIsNegative then p % 2 ^ 64 = 0 ∨ 2 ^ 63 < p % 2 ^ 64 else 2 ^ 63 ≤ p % 2 ^ 64

instance (sIsNegative : Bool) (p : Nat) : Decidable (Overflows sIsNegative p) :=
  inferInstanceAs (Decidable (ite (sIsNegative = true) (_ ∨ _) (_ ≤ _)))

def Noticed (sIsNegative : Bool) : List Char → Prop
  | [] => False
  | c :: digits => Noticed sIsNegative digits ∨
      c ≠ '0' ∧ Overflows sIsNegative (valueOf (c :: digits))

/-- The 64 bits of a number with a sign. -/
def bitsOf (sIsNegative : Bool) (p : Nat) : BitVec 64 :=
  if sIsNegative then -BitVec.ofNat 64 p else BitVec.ofNat 64 p

theorem overflows_iff (sIsNegative : Bool) (p : Nat) :
    Overflows sIsNegative p ↔
      (if sIsNegative then 0 ≤ (bitsOf sIsNegative p).toInt
        else (bitsOf sIsNegative p).toInt < 0) := by
  unfold Overflows bitsOf
  cases sIsNegative with
  | true =>
    rw [if_pos rfl, if_pos rfl, if_pos rfl, BitVec.toInt_eq_toNat_cond, BitVec.toNat_neg,
      BitVec.toNat_ofNat]
    split <;> omega
  | false =>
    rw [if_neg Bool.false_ne_true, if_neg Bool.false_ne_true, if_neg Bool.false_ne_true,
      BitVec.toInt_eq_toNat_cond, BitVec.toNat_ofNat]
    split <;> omega

theorem bitsOf_add (sIsNegative : Bool) (m d p : Nat) :
    bitsOf sIsNegative (m * d + p) =
      if sIsNegative then bitsOf sIsNegative p - BitVec.ofNat 64 m * BitVec.ofNat 64 d
      else bitsOf sIsNegative p + BitVec.ofNat 64 m * BitVec.ofNat 64 d := by
  have whole : BitVec.ofNat 64 (m * d + p) =
      BitVec.ofNat 64 m * BitVec.ofNat 64 d + BitVec.ofNat 64 p := by
    rw [BitVec.ofNat_add, BitVec.ofNat_mul]
  unfold bitsOf
  rw [whole]
  cases sIsNegative with
  | true =>
    rw [if_pos rfl, if_pos rfl, if_pos rfl, BitVec.neg_add, BitVec.sub_eq_add_neg,
      BitVec.sub_eq_add_neg]
    exact BitVec.add_comm _ _
  | false =>
    rw [if_neg Bool.false_ne_true, if_neg Bool.false_ne_true, if_neg Bool.false_ne_true]
    exact BitVec.add_comm _ _

theorem addDigit_spec {sIsNegative : Bool} {current multiplier digit : Wide} {p m d : Nat}
    (currentIs : current.value = bitsOf sIsNegative p)
    (multiplierIs : multiplier.value = BitVec.ofNat 64 m)
    (digitIs : digit.value = BitVec.ofNat 64 d) :
    (Overflows sIsNegative (m * d + p) ∧
      ∃ message, addDigit sIsNegative current multiplier digit = .error message) ∨
    (¬Overflows sIsNegative (m * d + p) ∧ ∃ current' : Wide,
      addDigit sIsNegative current multiplier digit = .ok current' ∧
        current'.value = bitsOf sIsNegative (m * d + p)) := by
  have sum := bitsOf_add sIsNegative m d p
  rw [← currentIs, ← multiplierIs, ← digitIs] at sum
  rw [overflows_iff]
  unfold addDigit
  cases sIsNegative with
  | true =>
    rw [if_pos rfl] at sum ⊢
    have added : (current.sub (multiplier.mul digit)).value = bitsOf true (m * d + p) := by
      rw [value_sub, value_mul, sum]
    have negative := isNeg_iff (current.sub (multiplier.mul digit))
    rw [added] at negative
    rw [if_pos rfl]
    dsimp only
    split
    · rename_i below
      exact .inr ⟨Int.not_le.mpr (negative.mp below), _, rfl, added⟩
    · rename_i above
      exact .inl ⟨Int.not_lt.mp (mt negative.mpr above), _, rfl⟩
  | false =>
    rw [if_neg Bool.false_ne_true] at sum ⊢
    have added : (current.add (multiplier.mul digit)).value = bitsOf false (m * d + p) := by
      rw [value_add, value_mul, sum]
    have negative := isNeg_iff (current.add (multiplier.mul digit))
    rw [added] at negative
    rw [if_neg Bool.false_ne_true]
    dsimp only
    split
    · rename_i below
      exact .inl ⟨negative.mp below, _, rfl⟩
    · rename_i above
      exact .inr ⟨mt negative.mpr above, _, rfl, added⟩

theorem value_ofInt_small {d : Nat} (small : d < 10) :
    (ofInt (BitVec.ofInt 32 (d : Int))).value = BitVec.ofNat 64 d := by
  have every : ∀ d : Fin 10,
      (ofInt (BitVec.ofInt 32 (d.val : Int))).value = BitVec.ofNat 64 d.val := by decide
  exact every ⟨d, small⟩

theorem parseDigit_spec {sIsNegative : Bool} {current multiplier : Wide} {digits : List Char}
    {c : Char} (digit : c.isDigit = true)
    (currentIs : current.value = bitsOf sIsNegative (valueOf digits))
    (multiplierIs : multiplier.value = BitVec.ofNat 64 (10 ^ digits.length)) :
    ((c ≠ '0' ∧ Overflows sIsNegative (valueOf (c :: digits))) ∧
      ∃ message, parseDigit sIsNegative current multiplier c = .error message) ∨
    (¬(c ≠ '0' ∧ Overflows sIsNegative (valueOf (c :: digits))) ∧ ∃ current' : Wide,
      parseDigit sIsNegative current multiplier c = .ok current' ∧
        current'.value = bitsOf sIsNegative (valueOf (c :: digits))) := by
  have between : 48 ≤ c.toNat ∧ c.toNat ≤ 57 := Char.isDigit_iff_toNat.mp digit
  obtain ⟨d, code⟩ := Nat.exists_eq_add_of_le between.1
  have small : d < 10 := by omega
  have digitInt : (c.toNat : Int) - '0'.toNat = d := by
    show (c.toNat : Int) - 48 = d
    omega
  have digitNat : c.toNat - '0'.toNat = d := by
    show c.toNat - 48 = d
    omega
  have isZero : d = 0 ↔ c = '0' := by
    rw [← Char.toNat_inj]
    show d = 0 ↔ c.toNat = 48
    omega
  have inside : ¬((d : Int) < 0 ∨ (d : Int) > 9) := by omega
  unfold parseDigit
  rw [valueOf_cons, digitInt, digitNat]
  dsimp only
  rw [if_neg inside]
  by_cases zero : d = 0
  · have same : c = '0' := isZero.mp zero
    rw [if_neg (by omega), zero, Nat.mul_zero, Nat.zero_add]
    exact .inr ⟨fun both => both.1 same, current, rfl, currentIs⟩
  · have other : c ≠ '0' := mt isZero.mpr zero
    rw [if_pos (by omega)]
    rcases addDigit_spec currentIs multiplierIs (value_ofInt_small small) with
      ⟨overflows, thrown⟩ | ⟨fits, added⟩
    · exact .inl ⟨⟨other, overflows⟩, thrown⟩
    · exact .inr ⟨fun both => fits both.2, added⟩

/-- Digits are read as long as no sign gives an overflow away. -/
theorem parseDigits_spec {sIsNegative : Bool} {digits : List Char}
    (valid : ∀ c ∈ digits, c.isDigit = true) :
    (Noticed sIsNegative digits ∧
      ∃ message, parseDigits sIsNegative digits = .error message) ∨
    (¬Noticed sIsNegative digits ∧ ∃ current multiplier : Wide,
      parseDigits sIsNegative digits = .ok (current, multiplier) ∧
        current.value = bitsOf sIsNegative (valueOf digits) ∧
          multiplier.value = BitVec.ofNat 64 (10 ^ digits.length)) := by
  induction digits with
  | nil =>
    refine .inr ⟨id, ofInt 0, ofInt 1, rfl, ?_, by decide⟩
    cases sIsNegative <;> decide
  | cons c digits ih =>
    rcases ih fun c' member => valid c' (List.mem_cons_of_mem c member) with
      ⟨noticed, message, thrown⟩ | ⟨unnoticed, current, multiplier, done, currentIs, multiplierIs⟩
    · refine .inl ⟨.inl noticed, message, ?_⟩
      rw [parseDigits, thrown]
      rfl
    · rw [parseDigits, done]
      rcases parseDigit_spec (valid c List.mem_cons_self) currentIs multiplierIs with
        ⟨overflows, message, thrown⟩ | ⟨fits, current', read, currentIs'⟩
      · refine .inl ⟨.inr overflows, message, ?_⟩
        show (do let current ← parseDigit sIsNegative current multiplier c; _) = _
        rw [thrown]
        rfl
      · refine .inr ⟨fun either => either.elim unnoticed fits, current',
          multiplier.mul (ofInt 10), ?_, currentIs', ?_⟩
        · show (do let current ← parseDigit sIsNegative current multiplier c; _) = _
          rw [read]
          rfl
        · rw [value_mul, multiplierIs, List.length_cons, Nat.pow_succ, BitVec.ofNat_mul]
          rfl

end Wide

end Haxe.Source.Int64
