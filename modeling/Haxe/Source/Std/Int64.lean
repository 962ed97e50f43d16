import Mathlib.Tactic.Ring

/-!
# 64-bit integers of two words

`haxe.Int64`, with `ucompare` of `haxe.Int32`. The words are `Int`s of 32 bits that wrap.
-/

namespace Haxe.Source.Int64

/-- `ucompare` of `haxe.Int32`. -/
def wordUcompare (a b : BitVec 32) : BitVec 32 :=
  if a.toInt < 0 then if b.toInt < 0 then ~~~b - ~~~a else 1
  else if b.toInt < 0 then -1 else a - b

/-- `___Int64` -/
structure Wide where
  high : BitVec 32
  low : BitVec 32
  deriving DecidableEq, Repr

namespace Wide

/-- `ofInt` -/
def ofInt (x : BitVec 32) : Wide := ⟨x.sshiftRight 31, x⟩

def isNeg (x : Wide) : Bool := x.high.toInt < 0

def compare (a b : Wide) : BitVec 32 :=
  let v := a.high - b.high
  let v := if v ≠ 0 then v else wordUcompare a.low b.low
  if a.high.toInt < 0 then if b.high.toInt < 0 then v else -1
  else if b.high.toInt ≥ 0 then v else 1

def ucompare (a b : Wide) : BitVec 32 :=
  let v := wordUcompare a.high b.high
  if v ≠ 0 then v else wordUcompare a.low b.low

def neg (x : Wide) : Wide :=
  let high := ~~~x.high
  let low := -x.low
  ⟨if low = 0 then high + 1 else high, low⟩

def preIncrement (this : Wide) : Wide :=
  let low := this.low + 1
  ⟨if low = 0 then this.high + 1 else this.high, low⟩

/-- The result of `postIncrement`, and the number after it. -/
def postIncrement (this : Wide) : Wide × Wide := (this, this.preIncrement)

def preDecrement (this : Wide) : Wide :=
  ⟨if this.low = 0 then this.high - 1 else this.high, this.low - 1⟩

def postDecrement (this : Wide) : Wide × Wide := (this, this.preDecrement)

def add (a b : Wide) : Wide :=
  let high := a.high + b.high
  let low := a.low + b.low
  ⟨if (wordUcompare low a.low).toInt < 0 then high + 1 else high, low⟩

def sub (a b : Wide) : Wide :=
  let high := a.high - b.high
  let low := a.low - b.low
  ⟨if (wordUcompare a.low b.low).toInt < 0 then high - 1 else high, low⟩

def mul (a b : Wide) : Wide :=
  let mask : BitVec 32 := 0xFFFF
  let al := a.low &&& mask
  let ah := a.low >>> 16
  let bl := b.low &&& mask
  let bh := b.low >>> 16
  let p00 := al * bl
  let p10 := ah * bl
  let p01 := al * bh
  let p11 := ah * bh
  let low := p00
  let high := p11 + (p01 >>> 16) + (p10 >>> 16)
  let p01 := p01 <<< 16
  let low := low + p01
  let high := if (wordUcompare low p01).toInt < 0 then high + 1 else high
  let p10 := p10 <<< 16
  let low := low + p10
  let high := if (wordUcompare low p10).toInt < 0 then high + 1 else high
  let high := high + (a.low * b.high + a.high * b.low)
  ⟨high, low⟩

def neq (a b : Wide) : Bool := a.high != b.high || a.low != b.low

def or (a b : Wide) : Wide := ⟨a.high ||| b.high, a.low ||| b.low⟩

def shl (a : Wide) (b : BitVec 32) : Wide :=
  let b := (b &&& 63).toNat
  if b = 0 then a
  else if b < 32 then ⟨a.high <<< b ||| a.low >>> (32 - b), a.low <<< b⟩
  else ⟨a.low <<< (b - 32), 0⟩

def shr (a : Wide) (b : BitVec 32) : Wide :=
  let b := (b &&& 63).toNat
  if b = 0 then a
  else if b < 32 then ⟨a.high.sshiftRight b, a.high <<< (32 - b) ||| a.low >>> b⟩
  else ⟨a.high.sshiftRight 31, a.high.sshiftRight (b - 32)⟩

def ushr (a : Wide) (b : BitVec 32) : Wide :=
  let b := (b &&& 63).toNat
  if b = 0 then a
  else if b < 32 then ⟨a.high >>> b, a.high <<< (32 - b) ||| a.low >>> b⟩
  else ⟨0, a.high >>> (b - 32)⟩

/-- The first loop of `divMod`, which moves the divisor and the mask to the left. -/
@[grind =] def normalize (modulus : Wide) : Nat → Wide → Wide → Option (Wide × Wide)
  | 0, _, _ => none
  | fuel + 1, divisor, mask =>
    if divisor.isNeg then some (divisor, mask)
    else
      let cmp := ucompare divisor modulus
      let divisor := divisor.shl 1
      let mask := mask.shl 1
      if cmp.toInt ≥ 0 then some (divisor, mask) else normalize modulus fuel divisor mask

/-- The second loop of `divMod`, with the quotient and the modulus at its end. -/
@[grind =] def subtract : Nat → Wide → Wide → Wide → Wide → Option (Wide × Wide)
  | 0, _, _, _, _ => none
  | fuel + 1, quotient, modulus, divisor, mask =>
    if mask.neq (ofInt 0) then
      let fits := (ucompare modulus divisor).toInt ≥ 0
      let quotient' := if fits then quotient.or mask else quotient
      let modulus' := if fits then modulus.sub divisor else modulus
      subtract fuel quotient' modulus' (divisor.ushr 1) (mask.ushr 1)
    else some (quotient, modulus)

/-- `divMod`, with the quotient and the modulus; the error is thrown. Each loop has some fuel. -/
@[grind =]
def divMod (fuel : Nat) (dividend divisor : Wide) : Option (Except String (Wide × Wide)) :=
  if divisor.high = 0 ∧ divisor.low = 0 then some (.error "divide by zero")
  else if divisor.high = 0 ∧ divisor.low = 1 then some (.ok (dividend, ofInt 0))
  else do
    let divSign := dividend.isNeg != divisor.isNeg
    let modulus := if dividend.isNeg then dividend.neg else dividend
    let divisor := if divisor.isNeg then divisor.neg else divisor
    let normalized ← normalize modulus fuel divisor (ofInt 1)
    let found ← subtract fuel (ofInt 0) modulus normalized.1 normalized.2
    return .ok (if divSign then found.1.neg else found.1,
      if dividend.isNeg then found.2.neg else found.2)

end Wide

end Haxe.Source.Int64

/-!
## Two words as one number

The operations on the words, against those on the 64 bits that they stand for.
-/

namespace Haxe.Source.Int64

theorem toInt_neg_iff {w : Nat} (x : BitVec w) : x.toInt < 0 ↔ 2 ^ w ≤ 2 * x.toNat := by
  have := x.isLt
  rw [BitVec.toInt_eq_toNat_cond]
  split <;> omega

theorem toNat_one : (1 : BitVec 32).toNat = 1 := rfl

theorem toNat_zero : (0 : BitVec 32).toNat = 0 := rfl

/-- The sign of `ucompare` orders the words as numbers without a sign. -/
theorem wordUcompare_neg (a b : BitVec 32) :
    (wordUcompare a b).toInt < 0 ↔ a.toNat < b.toNat := by
  have := a.isLt
  have := b.isLt
  unfold wordUcompare
  simp only [toInt_neg_iff]
  split_ifs with neg neg' neg'
  · rw [BitVec.toNat_sub, BitVec.toNat_not, BitVec.toNat_not]
    omega
  · simp only [toNat_one]
    omega
  · simp only [BitVec.toNat_neg, toNat_one]
    omega
  · rw [BitVec.toNat_sub]
    omega

theorem wordUcompare_zero (a b : BitVec 32) : wordUcompare a b = 0 ↔ a = b := by
  have := a.isLt
  have := b.isLt
  unfold wordUcompare
  simp only [toInt_neg_iff, ← BitVec.toNat_inj]
  split_ifs with neg neg' neg'
  · rw [BitVec.toNat_sub, BitVec.toNat_not, BitVec.toNat_not, toNat_zero]
    omega
  · simp only [toNat_one, toNat_zero]
    omega
  · simp only [BitVec.toNat_neg, toNat_one, toNat_zero]
    omega
  · rw [BitVec.toNat_sub, toNat_zero]
    omega

namespace Wide

/-- The 64 bits of two words. -/
def value (x : Wide) : BitVec 64 := x.high ++ x.low

theorem toNat_value (x : Wide) : x.value.toNat = x.high.toNat * 2 ^ 32 + x.low.toNat := by
  unfold value
  rw [BitVec.toNat_append, Nat.shiftLeft_eq, Nat.mul_comm,
    ← Nat.two_pow_add_eq_or_of_lt x.low.isLt]

theorem value_inj {x y : Wide} : x.value = y.value ↔ x = y := by
  constructor
  · intro same
    have equal := congrArg BitVec.toNat same
    rw [toNat_value, toNat_value] at equal
    have := x.low.isLt
    have := y.low.isLt
    have high : x.high = y.high := BitVec.eq_of_toNat_eq (by omega)
    have low : x.low = y.low := BitVec.eq_of_toNat_eq (by omega)
    cases x
    cases y
    simp_all
  · rintro rfl
    rfl

theorem isNeg_iff (x : Wide) : x.isNeg = true ↔ x.value.toInt < 0 := by
  have := x.low.isLt
  unfold isNeg
  rw [decide_eq_true_iff, toInt_neg_iff, toInt_neg_iff, toNat_value]
  omega

theorem value_neg (x : Wide) : x.neg.value = -x.value := by
  have := x.high.isLt
  have := x.low.isLt
  apply BitVec.eq_of_toNat_eq
  rw [BitVec.toNat_neg, toNat_value, toNat_value]
  unfold neg
  simp only [← BitVec.toNat_inj]
  split_ifs with zero
  · simp only [BitVec.toNat_neg, toNat_zero] at zero
    simp only [BitVec.toNat_add, BitVec.toNat_not, BitVec.toNat_neg, toNat_one]
    omega
  · simp only [BitVec.toNat_neg, toNat_zero] at zero
    simp only [BitVec.toNat_not, BitVec.toNat_neg]
    omega

theorem value_add (a b : Wide) : (a.add b).value = a.value + b.value := by
  have := a.high.isLt
  have := a.low.isLt
  have := b.high.isLt
  have := b.low.isLt
  apply BitVec.eq_of_toNat_eq
  rw [BitVec.toNat_add, toNat_value, toNat_value, toNat_value]
  unfold add
  simp only [wordUcompare_neg, BitVec.toNat_add]
  split_ifs with carry
  · simp only [BitVec.toNat_add, toNat_one]
    omega
  · simp only [BitVec.toNat_add]
    omega

theorem value_sub (a b : Wide) : (a.sub b).value = a.value - b.value := by
  have := a.high.isLt
  have := a.low.isLt
  have := b.high.isLt
  have := b.low.isLt
  apply BitVec.eq_of_toNat_eq
  rw [BitVec.toNat_sub, toNat_value, toNat_value, toNat_value]
  unfold sub
  simp only [wordUcompare_neg]
  split_ifs with borrow
  · simp only [BitVec.toNat_sub, toNat_one]
    omega
  · simp only [BitVec.toNat_sub]
    omega

theorem value_preIncrement (x : Wide) : x.preIncrement.value = x.value + 1 := by
  have := x.high.isLt
  have := x.low.isLt
  apply BitVec.eq_of_toNat_eq
  change _ = (x.value + 1#64).toNat
  rw [BitVec.toNat_add, toNat_value, toNat_value]
  unfold preIncrement
  simp only [← BitVec.toNat_inj, BitVec.toNat_add, toNat_zero, toNat_one, BitVec.toNat_ofNat]
  split_ifs with carry
  · simp only [BitVec.toNat_add, toNat_one]
    omega
  · omega

theorem value_preDecrement (x : Wide) : x.preDecrement.value = x.value - 1 := by
  have := x.high.isLt
  have := x.low.isLt
  apply BitVec.eq_of_toNat_eq
  change _ = (x.value - 1#64).toNat
  rw [BitVec.toNat_sub, toNat_value, toNat_value]
  unfold preDecrement
  simp only [← BitVec.toNat_inj, BitVec.toNat_sub, toNat_zero, toNat_one, BitVec.toNat_ofNat]
  split_ifs with borrow
  · simp only [BitVec.toNat_sub, toNat_one]
    omega
  · omega

/-- The sign of `ucompare` orders the 64 bits as numbers without a sign. -/
theorem ucompare_neg (a b : Wide) :
    (ucompare a b).toInt < 0 ↔ a.value.toNat < b.value.toNat := by
  have := a.low.isLt
  have := b.low.isLt
  rw [toNat_value, toNat_value]
  unfold ucompare
  dsimp only
  split_ifs with other
  · rw [wordUcompare_neg]
    have : a.high.toNat ≠ b.high.toNat := by
      intro same
      exact other ((wordUcompare_zero _ _).mpr (BitVec.eq_of_toNat_eq same))
    omega
  · rw [wordUcompare_neg, (wordUcompare_zero _ _).mp (not_not.mp other)]
    omega

theorem ucompare_zero (a b : Wide) : ucompare a b = 0 ↔ a.value = b.value := by
  rw [value_inj]
  unfold ucompare
  dsimp only
  split_ifs with other
  · rw [iff_false_left other]
    rintro rfl
    exact other ((wordUcompare_zero _ _).mpr rfl)
  · have same := (wordUcompare_zero _ _).mp (not_not.mp other)
    rw [wordUcompare_zero]
    constructor
    · intro low
      cases a
      cases b
      simp_all
    · rintro rfl
      rfl

theorem toInt_value (x : Wide) : x.value.toInt = x.high.toInt * 2 ^ 32 + x.low.toNat := by
  have := x.low.isLt
  have := x.high.isLt
  rw [BitVec.toInt_eq_toNat_cond, BitVec.toInt_eq_toNat_cond, toNat_value]
  split_ifs <;> omega

/-- The difference of words that have one sign has the sign of their order. -/
theorem sub_neg_iff {x y : BitVec 32} (same : x.toInt < 0 ↔ y.toInt < 0) :
    (x - y).toInt < 0 ↔ x.toInt < y.toInt := by
  have := x.isLt
  have := y.isLt
  rw [toInt_neg_iff, toInt_neg_iff] at same
  rw [toInt_neg_iff, BitVec.toNat_sub, BitVec.toInt_eq_toNat_cond, BitVec.toInt_eq_toNat_cond]
  split_ifs <;> omega

theorem sub_zero_iff (x y : BitVec 32) : x - y = 0 ↔ x = y := by
  have := x.isLt
  have := y.isLt
  rw [← BitVec.toNat_inj, ← BitVec.toNat_inj, BitVec.toNat_sub, toNat_zero]
  omega

theorem compare_neg (a b : Wide) :
    (compare a b).toInt < 0 ↔ a.value.toInt < b.value.toInt := by
  have := a.low.isLt
  have := b.low.isLt
  rw [toInt_value, toInt_value]
  unfold compare
  dsimp only
  by_cases same : a.high = b.high
  · rw [same, (sub_zero_iff b.high b.high).mpr rfl, if_neg (not_not.mpr rfl)]
    split_ifs
    · rw [wordUcompare_neg]
      omega
    · rw [wordUcompare_neg]
      omega
    · omega
  · have other : a.high.toInt ≠ b.high.toInt := fun equal => same (BitVec.toInt_inj.mp equal)
    have apart : a.high - b.high ≠ 0 := fun zero => same ((sub_zero_iff _ _).mp zero)
    rw [if_pos apart]
    split_ifs with neg neg' neg'
    · rw [sub_neg_iff (iff_of_true neg neg')]
      omega
    · exact iff_of_true (by decide) (by omega)
    · rw [sub_neg_iff (iff_of_false neg (by omega))]
      omega
    · exact iff_of_false (by decide) (by omega)

theorem compare_zero (a b : Wide) : compare a b = 0 ↔ a.value = b.value := by
  rw [value_inj]
  unfold compare
  dsimp only
  by_cases same : a.high = b.high
  · have equal : a = b ↔ a.low = b.low := by
      constructor
      · rintro rfl
        rfl
      · intro low
        cases a
        cases b
        simp_all
    rw [same, (sub_zero_iff b.high b.high).mpr rfl, if_neg (not_not.mpr rfl), equal]
    split_ifs
    · exact wordUcompare_zero _ _
    · exact wordUcompare_zero _ _
    · omega
  · have apart : a.high - b.high ≠ 0 := fun zero => same ((sub_zero_iff _ _).mp zero)
    have unequal : a ≠ b := fun equal => same (congrArg high equal)
    rw [if_pos apart, iff_false_right unequal]
    split_ifs
    · exact apart
    · decide
    · exact apart
    · decide

/-- The sum of the partial products, with its carries. -/
def accumulate (p00 p10 p01 p11 cross : BitVec 32) : Wide :=
  let low := p00 + p01 <<< 16
  let high := p11 + (p01 >>> 16) + (p10 >>> 16)
  let high := if (wordUcompare low (p01 <<< 16)).toInt < 0 then high + 1 else high
  let low' := low + p10 <<< 16
  let high := if (wordUcompare low' (p10 <<< 16)).toInt < 0 then high + 1 else high
  ⟨high + cross, low'⟩

/-- The comparison behind an addition finds its carry. -/
theorem add_carry (x y high : BitVec 32) :
    ∃ carry, x.toNat + y.toNat = (x + y).toNat + carry * 2 ^ 32 ∧
      (if (wordUcompare (x + y) y).toInt < 0 then high + 1 else high).toNat =
        (high.toNat + carry) % 2 ^ 32 := by
  have := x.isLt
  have := y.isLt
  have := high.isLt
  simp only [wordUcompare_neg]
  have sum : (x + y).toNat = (x.toNat + y.toNat) % 2 ^ 32 := BitVec.toNat_add x y
  by_cases carries : (x + y).toNat < y.toNat
  · refine ⟨1, by omega, ?_⟩
    rw [if_pos carries, BitVec.toNat_add, toNat_one]
  · refine ⟨0, by omega, ?_⟩
    rw [if_neg carries]
    omega

/-- The high half of a word, and its low half as the shift to the left leaves it. -/
theorem toNat_halves (p : BitVec 32) :
    p.toNat * 2 ^ 16 = (p >>> 16).toNat * 2 ^ 32 + (p <<< 16).toNat := by
  have := p.isLt
  rw [BitVec.toNat_shiftLeft, BitVec.toNat_ushiftRight, Nat.shiftLeft_eq,
    Nat.shiftRight_eq_div_pow]
  omega

theorem toNat_accumulate (p00 p10 p01 p11 cross : BitVec 32) :
    (accumulate p00 p10 p01 p11 cross).value.toNat =
      (p11.toNat * 2 ^ 32 + (p01.toNat + p10.toNat) * 2 ^ 16 + p00.toNat +
        cross.toNat * 2 ^ 32) % 2 ^ 64 := by
  rw [toNat_value]
  unfold accumulate
  dsimp only
  rw [Nat.add_mul, toNat_halves p01, toNat_halves p10, BitVec.toNat_add _ cross]
  obtain ⟨carry, low, high⟩ := add_carry p00 (p01 <<< 16) (p11 + (p01 >>> 16) + (p10 >>> 16))
  generalize (if (wordUcompare (p00 + p01 <<< 16) (p01 <<< 16)).toInt < 0 then
    p11 + (p01 >>> 16) + (p10 >>> 16) + 1 else p11 + (p01 >>> 16) + (p10 >>> 16)) = high₁ at *
  obtain ⟨carry', low', high'⟩ := add_carry (p00 + p01 <<< 16) (p10 <<< 16) high₁
  have below := (p00 + p01 <<< 16 + p10 <<< 16).isLt
  rw [high', high, BitVec.toNat_add, BitVec.toNat_add]
  generalize (p00 + p01 <<< 16 + p10 <<< 16).toNat = l' at *
  generalize (p00 + p01 <<< 16).toNat = l at *
  omega

/-- A product of two halves of a word fits into a word. -/
theorem toNat_half_mul {x y : BitVec 32} (x_half : x.toNat < 65536) (y_half : y.toNat < 65536) :
    (x * y).toNat = x.toNat * y.toNat := by
  rw [BitVec.toNat_mul]
  apply Nat.mod_eq_of_lt
  calc x.toNat * y.toNat ≤ 65535 * 65535 := Nat.mul_le_mul (by omega) (by omega)
    _ < 2 ^ 32 := by decide

theorem value_mul (a b : Wide) : (a.mul b).value = a.value * b.value := by
  have halves (w : BitVec 32) : (w &&& 0xFFFF).toNat = w.toNat % 65536 ∧
      (w >>> 16).toNat = w.toNat / 65536 := by
    constructor
    · rw [BitVec.toNat_and]
      exact Nat.and_two_pow_sub_one_eq_mod w.toNat 16
    · rw [BitVec.toNat_ushiftRight, Nat.shiftRight_eq_div_pow]
  have low_half (w : BitVec 32) : (w &&& 0xFFFF).toNat < 65536 := by
    rw [(halves w).1]
    omega
  have high_half (w : BitVec 32) : (w >>> 16).toNat < 65536 := by
    have := w.isLt
    rw [(halves w).2]
    omega
  apply BitVec.eq_of_toNat_eq
  have words : a.mul b = accumulate ((a.low &&& (0xFFFF : BitVec 32)) * (b.low &&& 0xFFFF))
      ((a.low >>> 16) * (b.low &&& (0xFFFF : BitVec 32)))
      ((a.low &&& (0xFFFF : BitVec 32)) * (b.low >>> 16))
      ((a.low >>> 16) * (b.low >>> 16)) (a.low * b.high + a.high * b.low) := rfl
  rw [words]
  rw [toNat_accumulate, toNat_half_mul (low_half _) (low_half _),
    toNat_half_mul (high_half _) (low_half _), toNat_half_mul (low_half _) (high_half _),
    toNat_half_mul (high_half _) (high_half _), (halves _).1, (halves _).1, (halves _).2,
    (halves _).2, BitVec.toNat_mul, toNat_value, toNat_value, BitVec.toNat_add, BitVec.toNat_mul,
    BitVec.toNat_mul]
  generalize a.low.toNat = al, b.low.toNat = bl, a.high.toNat = ah, b.high.toNat = bh
  have low : al * bl = al / 65536 * (bl / 65536) * 2 ^ 32 +
      (al % 65536 * (bl / 65536) + al / 65536 * (bl % 65536)) * 2 ^ 16 +
        al % 65536 * (bl % 65536) := by
    conv_lhs => rw [← Nat.div_add_mod al 65536, ← Nat.div_add_mod bl 65536]
    ring
  have whole : (ah * 2 ^ 32 + al) * (bh * 2 ^ 32 + bl) =
      ah * bh * 2 ^ 64 + (al * bh + ah * bl) * 2 ^ 32 + al * bl := by ring
  rw [whole, low]
  generalize al / 65536 * (bl / 65536) = p11, al % 65536 * (bl / 65536) = p01,
    al / 65536 * (bl % 65536) = p10, al % 65536 * (bl % 65536) = p00, al * bh = x, ah * bl = y,
    ah * bh = z
  omega

theorem toNat_count (b : BitVec 32) : (b &&& 63).toNat = b.toNat % 64 := by
  rw [BitVec.toNat_and]
  exact Nat.and_two_pow_sub_one_eq_mod b.toNat 6

theorem value_shl (a : Wide) (b : BitVec 32) : (a.shl b).value = a.value <<< (b.toNat % 64) := by
  unfold shl value
  dsimp only
  rw [toNat_count]
  generalize b.toNat % 64 = n
  split_ifs with none short
  · rw [none, BitVec.shiftLeft_zero]
  · apply BitVec.eq_of_getLsbD_eq
    intro i bound
    simp only [BitVec.getLsbD_append, BitVec.getLsbD_or, BitVec.getLsbD_shiftLeft,
      BitVec.getLsbD_ushiftRight]
    -- below the middle the bits come from the low word, above it from both words
    by_cases low : i < 32
    · simp [low, bound]
      grind only [BitVec.getLsbD_of_ge]
    · simp [low, bound]
      grind only [BitVec.getLsbD_of_ge]
  · apply BitVec.eq_of_getLsbD_eq
    intro i bound
    simp only [BitVec.getLsbD_append, BitVec.getLsbD_shiftLeft]
    by_cases low : i < 32
    · simp [low, bound]
      grind only [BitVec.getLsbD_of_ge]
    · simp [low, bound]
      grind only [BitVec.getLsbD_of_ge]

theorem value_ushr (a : Wide) (b : BitVec 32) :
    (a.ushr b).value = a.value >>> (b.toNat % 64) := by
  unfold ushr value
  dsimp only
  rw [toNat_count]
  generalize b.toNat % 64 = n
  split_ifs with none short
  · rw [none, BitVec.ushiftRight_zero]
  · apply BitVec.eq_of_getLsbD_eq
    intro i bound
    simp only [BitVec.getLsbD_append, BitVec.getLsbD_or, BitVec.getLsbD_shiftLeft,
      BitVec.getLsbD_ushiftRight]
    by_cases low : i < 32
    · simp [low]
      grind only [BitVec.getLsbD_of_ge]
    · simp [low]
      grind only [BitVec.getLsbD_of_ge]
  · apply BitVec.eq_of_getLsbD_eq
    intro i bound
    simp only [BitVec.getLsbD_append, BitVec.getLsbD_ushiftRight]
    by_cases low : i < 32
    · simp [low]
      grind only [BitVec.getLsbD_of_ge]
    · simp [low]
      grind only [BitVec.getLsbD_of_ge]

theorem value_shr (a : Wide) (b : BitVec 32) :
    (a.shr b).value = a.value.sshiftRight (b.toNat % 64) := by
  unfold shr value
  dsimp only
  rw [toNat_count]
  generalize b.toNat % 64 = n
  split_ifs with none short
  · rw [none, BitVec.sshiftRight_zero]
  · apply BitVec.eq_of_getLsbD_eq
    intro i bound
    simp only [BitVec.getLsbD_append, BitVec.getLsbD_or, BitVec.getLsbD_shiftLeft,
      BitVec.getLsbD_ushiftRight, BitVec.getLsbD_sshiftRight, BitVec.msb_append]
    by_cases low : i < 32
    · simp [low]
      grind only [BitVec.getLsbD_of_ge]
    · simp [low]
      grind only [BitVec.getLsbD_of_ge]
  · apply BitVec.eq_of_getLsbD_eq
    intro i bound
    simp only [BitVec.getLsbD_append, BitVec.getLsbD_sshiftRight, BitVec.msb_append]
    by_cases low : i < 32
    · simp [low]
      grind only [BitVec.getLsbD_of_ge]
    · simp [low]
      grind only [BitVec.getLsbD_of_ge, BitVec.msb_eq_getLsbD_last]

end Wide

end Haxe.Source.Int64
