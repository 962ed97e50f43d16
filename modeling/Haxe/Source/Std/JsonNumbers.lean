import Haxe.Theory.JsonGrammar
import Haxe.Source.Std.JsonReadBack

/-!
# The numbers that are read

The flags of `parseNumber` as an automaton, and the texts that it accepts: the digits behind a point
may be missing in front of an exponent, digits may stand in front of the sign of an exponent, and
there is no exponent behind zero.
-/

namespace Haxe.Source.Json

open Theory Theory.JsonGrammar

section Steps

/-- The flags after some characters, if none of them is invalid or the last one. -/
@[grind =] def NumberState.run (s : NumberState) : List Nat → Option NumberState
  | [] => some s
  | c :: t =>
    match s.step (some c) with
    | .next s => s.run t
    | .invalid => none
    | .last => none

def NumberState.Accepts (s : NumberState) (t : List Nat) : Prop :=
  ∃ s', s.run t = some s' ∧ s'.digit = true

theorem accepts_nil (s : NumberState) : s.Accepts [] ↔ s.digit = true := by
  constructor
  · rintro ⟨s', run, digit⟩
    cases run
    exact digit
  · exact fun digit => ⟨s, rfl, digit⟩

theorem accepts_next {s s' : NumberState} {c : Nat} (next : s.step (some c) = .next s')
    (t : List Nat) : s.Accepts (c :: t) ↔ s'.Accepts t := by
  unfold NumberState.Accepts
  rw [NumberState.run, next]

/-- A character that does not lead on. -/
def Stuck (s : NumberState) (c : Nat) : Prop := ∀ s', s.step (some c) ≠ .next s'

theorem not_accepts {s : NumberState} {c : Nat} (stuck : Stuck s c) (t : List Nat) :
    ¬ s.Accepts (c :: t) := by
  rintro ⟨s', run, -⟩
  rw [NumberState.run] at run
  cases step : s.step (some c) with
  | next s'' => exact stuck s'' step
  | invalid =>
    rw [step] at run
    cases run
  | last =>
    rw [step] at run
    cases run

theorem step_zero (s : NumberState) : s.step (some 48) =
    if s.zero && !s.point then .invalid
    else if s.minus then .next { s with minus := false, zero := true, digit := true }
    else .next { s with digit := true } := rfl

theorem step_digit (s : NumberState) {c : Nat} (digit : 49 ≤ c ∧ c ≤ 57) : s.step (some c) =
    if s.zero && !s.point then .invalid
    else .next { s with minus := false, digit := true, zero := false } := by
  have zero : c ≠ '0'.toNat := fun same => absurd digit.1 (by rw [same]; decide)
  unfold NumberState.step
  simp only []
  rw [if_neg zero]
  exact if_pos digit

theorem step_point (s : NumberState) : s.step (some 46) =
    if s.minus || s.point || s.e then .invalid
    else .next { s with digit := false, point := true } := rfl

theorem step_exponent (s : NumberState) {c : Nat} (mark : ExponentMark c) : s.step (some c) =
    if s.minus || s.zero || s.e then .invalid
    else .next { s with digit := false, e := true } := by
  obtain rfl | rfl := mark <;> rfl

theorem step_sign (s : NumberState) {c : Nat} (sign : Sign c) : s.step (some c) =
    if !s.e || s.pm then .invalid else .next { s with digit := false, pm := true } := by
  obtain rfl | rfl := sign <;> rfl

theorem endsNumber_iff (c : Nat) : endsNumber c = true ↔ ¬NumberChar c := by
  unfold endsNumber NumberChar Digit
  simp only [Bool.not_eq_true', Bool.or_eq_false_iff, Bool.and_eq_false_iff,
    decide_eq_false_iff_not, beq_eq_false_iff_ne]
  show ((((((¬48 ≤ c ∨ ¬c ≤ 57) ∧ c ≠ 46) ∧ c ≠ 101) ∧ c ≠ 69) ∧ c ≠ 43) ∧ c ≠ 45) ↔ _
  omega

theorem stuck_other (s : NumberState) {c : Nat} (other : ¬NumberChar c) : Stuck s c := by
  intro s' next
  rw [step_end ((endsNumber_iff c).mpr other)] at next
  split at next <;> cases next

/-- The kinds of characters. -/
theorem char_cases (c : Nat) :
    c = 48 ∨ (49 ≤ c ∧ c ≤ 57) ∨ c = 46 ∨
      (ExponentMark c ∧ ¬Digit c ∧ ¬Sign c ∧ c ≠ 46) ∨
      (Sign c ∧ ¬Digit c ∧ ¬ExponentMark c ∧ c ≠ 46) ∨
      (¬NumberChar c ∧ ¬Digit c ∧ ¬Sign c ∧ ¬ExponentMark c ∧ c ≠ 46) := by
  unfold ExponentMark Sign NumberChar Digit
  omega

theorem digit_of_positive {c : Nat} (digit : 49 ≤ c ∧ c ≤ 57) : Digit c :=
  ⟨Nat.le_trans (by decide) digit.1, digit.2⟩

theorem point_apart : ¬Digit 46 ∧ ¬Sign 46 ∧ ¬ExponentMark 46 := by
  unfold Digit Sign ExponentMark
  decide

end Steps

section Languages

/-- Behind the sign of an exponent. -/
def signed (d b : Bool) : NumberState := ⟨false, d, false, b, true, true⟩

/-- In an exponent without a sign. -/
def unsigned (d b : Bool) : NumberState := ⟨false, d, false, b, true, false⟩

/-- Behind a point, with the flag for zero. -/
def fraction (d z : Bool) : NumberState := ⟨false, d, z, true, false, false⟩

theorem stuck_invalid {s : NumberState} {c : Nat} (invalid : s.step (some c) = .invalid) :
    Stuck s c := by
  intro s' next
  rw [invalid] at next
  cases next

theorem signed_cases (d b : Bool) (c : Nat) :
    (Digit c ∧ (signed d b).step (some c) = .next (signed true b)) ∨
      (¬Digit c ∧ Stuck (signed d b) c) := by
  obtain rfl | digit | rfl | ⟨mark, no, -⟩ | ⟨sign, no, -⟩ | ⟨other, no, -⟩ := char_cases c
  · exact Or.inl ⟨⟨by decide, by decide⟩, step_zero _⟩
  · exact Or.inl ⟨digit_of_positive digit, step_digit _ digit⟩
  · exact Or.inr ⟨point_apart.1, stuck_invalid (by rw [step_point]; simp [signed])⟩
  · exact Or.inr ⟨no, stuck_invalid (by rw [step_exponent _ mark]; simp [signed])⟩
  · exact Or.inr ⟨no, stuck_invalid (by rw [step_sign _ sign]; simp [signed])⟩
  · exact Or.inr ⟨no, stuck_other _ other⟩

theorem unsigned_cases (d b : Bool) (c : Nat) :
    (Digit c ∧ (unsigned d b).step (some c) = .next (unsigned true b)) ∨
      (Sign c ∧ (unsigned d b).step (some c) = .next (signed false b)) ∨
      (¬Digit c ∧ ¬Sign c ∧ Stuck (unsigned d b) c) := by
  obtain rfl | digit | rfl | ⟨mark, no, no', -⟩ | ⟨sign, -⟩ | ⟨other, no, no', -⟩ := char_cases c
  · exact Or.inl ⟨⟨by decide, by decide⟩, step_zero _⟩
  · exact Or.inl ⟨digit_of_positive digit, step_digit _ digit⟩
  · exact Or.inr (Or.inr ⟨point_apart.1, point_apart.2.1,
      stuck_invalid (by rw [step_point]; simp [unsigned])⟩)
  · exact Or.inr (Or.inr ⟨no, no',
      stuck_invalid (by rw [step_exponent _ mark]; simp [unsigned])⟩)
  · exact Or.inr (Or.inl ⟨sign, step_sign _ sign⟩)
  · exact Or.inr (Or.inr ⟨no, no', stuck_other _ other⟩)

theorem fraction_cases (d z : Bool) (c : Nat) :
    (Digit c ∧ (fraction d z).step (some c) = .next (fraction true (z && c == 48))) ∨
      (ExponentMark c ∧ z = false ∧ (fraction d z).step (some c) = .next (unsigned false true)) ∨
      (¬Digit c ∧ (ExponentMark c → z = true) ∧ Stuck (fraction d z) c) := by
  obtain rfl | digit | rfl | ⟨mark, no, -⟩ | ⟨sign, no, no', -⟩ | ⟨other, no, -, no', -⟩ :=
    char_cases c
  · refine Or.inl ⟨⟨by decide, by decide⟩, ?_⟩
    rw [step_zero]
    cases z <;> rfl
  · refine Or.inl ⟨digit_of_positive digit, ?_⟩
    have nonzero : (c == 48) = false := beq_eq_false_iff_ne.mpr (by omega)
    rw [step_digit _ digit, nonzero, Bool.and_false]
    cases z <;> rfl
  · exact Or.inr (Or.inr ⟨point_apart.1, fun mark => absurd mark point_apart.2.2,
      stuck_invalid (by rw [step_point]; simp [fraction])⟩)
  · cases z with
    | false => exact Or.inr (Or.inl ⟨mark, rfl, step_exponent _ mark⟩)
    | true =>
      exact Or.inr (Or.inr ⟨no, fun _ => rfl,
        stuck_invalid (by rw [step_exponent _ mark]; simp [fraction])⟩)
  · exact Or.inr (Or.inr ⟨no, fun mark => absurd mark no',
      stuck_invalid (by rw [step_sign _ sign]; simp [fraction])⟩)
  · exact Or.inr (Or.inr ⟨no, fun mark => absurd mark no', stuck_other _ other⟩)

theorem digits_cases (c : Nat) :
    (Digit c ∧ digits.step (some c) = .next digits) ∨
      (c = 46 ∧ digits.step (some c) = .next (fraction false false)) ∨
      (ExponentMark c ∧ digits.step (some c) = .next (unsigned false false)) ∨
      (¬Digit c ∧ c ≠ 46 ∧ ¬ExponentMark c ∧ Stuck digits c) := by
  obtain rfl | digit | rfl | ⟨mark, -⟩ | ⟨sign, no, no', no''⟩ | ⟨other, no, -, no', no''⟩ :=
    char_cases c
  · exact Or.inl ⟨⟨by decide, by decide⟩, step_zero _⟩
  · exact Or.inl ⟨digit_of_positive digit, step_digit _ digit⟩
  · exact Or.inr (Or.inl ⟨rfl, rfl⟩)
  · exact Or.inr (Or.inr (Or.inl ⟨mark, step_exponent _ mark⟩))
  · exact Or.inr (Or.inr (Or.inr ⟨no, no'', no', stuck_invalid (by rw [step_sign _ sign]; rfl)⟩))
  · exact Or.inr (Or.inr (Or.inr ⟨no, no'', no', stuck_other _ other⟩))

/-- Behind a zero in front of the point. -/
theorem zero_cases (c : Nat) :
    (c = 46 ∧ (firstNumberState 48).step (some c) = .next (fraction false true)) ∨
      (c ≠ 46 ∧ Stuck (firstNumberState 48) c) := by
  obtain rfl | digit | rfl | ⟨mark, -, -, no⟩ | ⟨sign, -, -, no⟩ | ⟨other, -, -, -, no⟩ :=
    char_cases c
  · exact Or.inr ⟨by decide, stuck_invalid rfl⟩
  · exact Or.inr ⟨by omega, stuck_invalid (by rw [step_digit _ digit]; rfl)⟩
  · exact Or.inl ⟨rfl, rfl⟩
  · exact Or.inr ⟨no, stuck_invalid (by rw [step_exponent _ mark]; rfl)⟩
  · exact Or.inr ⟨no, stuck_invalid (by rw [step_sign _ sign]; rfl)⟩
  · exact Or.inr ⟨no, stuck_other _ other⟩

/-- Behind a minus. -/
theorem minus_cases (c : Nat) :
    (c = 48 ∧ (firstNumberState 45).step (some c) = .next (firstNumberState 48)) ∨
      ((49 ≤ c ∧ c ≤ 57) ∧ (firstNumberState 45).step (some c) = .next digits) ∨
      (¬Digit c ∧ Stuck (firstNumberState 45) c) := by
  obtain rfl | digit | rfl | ⟨mark, no, -⟩ | ⟨sign, no, -⟩ | ⟨other, no, -⟩ := char_cases c
  · exact Or.inl ⟨rfl, rfl⟩
  · exact Or.inr (Or.inl ⟨digit, step_digit _ digit⟩)
  · exact Or.inr (Or.inr ⟨point_apart.1, stuck_invalid rfl⟩)
  · exact Or.inr (Or.inr ⟨no, stuck_invalid (by rw [step_exponent _ mark]; rfl)⟩)
  · exact Or.inr (Or.inr ⟨no, stuck_invalid (by rw [step_sign _ sign]; rfl)⟩)
  · exact Or.inr (Or.inr ⟨no, stuck_other _ other⟩)

theorem accepts_signed (d b : Bool) (t : List Nat) :
    (signed d b).Accepts t ↔ (∀ c ∈ t, Digit c) ∧ (d = true ∨ t ≠ []) := by
  induction t generalizing d with
  | nil =>
    rw [accepts_nil]
    simp [signed]
  | cons c t ih =>
    obtain ⟨digit, step⟩ | ⟨no, stuck⟩ := signed_cases d b c
    · rw [accepts_next step, ih, List.forall_mem_cons]
      simp [digit]
    · exact iff_of_false (not_accepts stuck t) (fun all => no (all.1 c (List.mem_cons_self ..)))

/-- Digits in front of what stands behind them. -/
def Behind (tail : List Nat → List Nat → Prop) (t : List Nat) : Prop :=
  ∃ ds rest, t = ds ++ rest ∧ (∀ c ∈ ds, Digit c) ∧ tail ds rest

theorem behind_nil (tail : List Nat → List Nat → Prop) : Behind tail [] ↔ tail [] [] := by
  constructor
  · rintro ⟨ds, rest, eq, -, last⟩
    obtain ⟨rfl, rfl⟩ := List.append_eq_nil_iff.mp eq.symm
    exact last
  · exact fun last => ⟨[], [], rfl, List.forall_mem_nil _, last⟩

theorem behind_cons (tail : List Nat → List Nat → Prop) (c : Nat) (t : List Nat) :
    Behind tail (c :: t) ↔
      (Digit c ∧ Behind (fun ds => tail (c :: ds)) t) ∨ tail [] (c :: t) := by
  constructor
  · rintro ⟨ds, rest, eq, all, last⟩
    cases ds with
    | nil =>
      obtain rfl : c :: t = rest := eq
      exact Or.inr last
    | cons d ds =>
      obtain ⟨rfl, rfl⟩ := List.cons.inj eq
      have parts := List.forall_mem_cons.mp all
      exact Or.inl ⟨parts.1, ds, rest, rfl, parts.2, last⟩
  · rintro (⟨digit, ds, rest, rfl, all, last⟩ | last)
    · exact ⟨c :: ds, rest, rfl, List.forall_mem_cons.mpr ⟨digit, all⟩, last⟩
    · exact ⟨[], c :: t, rfl, List.forall_mem_nil _, last⟩

/-- What stands behind the digits of an exponent: nothing, or a sign with digits. -/
def ExponentTail (d : Bool) (ds rest : List Nat) : Prop :=
  (rest = [] ∧ (d = true ∨ ds ≠ [])) ∨ ∃ c more, rest = c :: more ∧ Sign c ∧ Digits more

theorem exponentTail_cons (d : Bool) (c : Nat) :
    (fun ds => ExponentTail d (c :: ds)) = ExponentTail true := by
  funext ds rest
  simp [ExponentTail]

theorem accepts_unsigned (d b : Bool) (t : List Nat) :
    (unsigned d b).Accepts t ↔ Behind (ExponentTail d) t := by
  induction t generalizing d with
  | nil =>
    rw [accepts_nil, behind_nil]
    simp [unsigned, ExponentTail]
  | cons c t ih =>
    rw [behind_cons, exponentTail_cons]
    obtain ⟨digit, step⟩ | ⟨sign, step⟩ | ⟨no, no', stuck⟩ := unsigned_cases d b c
    · have other : ¬Sign c := by
        unfold Digit at digit
        unfold Sign
        omega
      rw [accepts_next step, ih]
      simp [digit, other, ExponentTail]
    · have other : ¬Digit c := by
        unfold Sign at sign
        unfold Digit
        omega
      rw [accepts_next step, accepts_signed]
      simp [other, sign, ExponentTail, Digits, and_comm]
    · apply iff_of_false (not_accepts stuck t)
      simp [no, no', ExponentTail]

/-- What stands behind the digits of a fraction: nothing, or an exponent unless all digits are
zero, in front of the point too. -/
def FractionTail (d z : Bool) (ds rest : List Nat) : Prop :=
  (rest = [] ∧ (d = true ∨ ds ≠ [])) ∨
    ∃ c more, rest = c :: more ∧ ExponentMark c ∧ (z = false ∨ ∃ x ∈ ds, x ≠ 48) ∧
      Behind (ExponentTail false) more

theorem fractionTail_cons (d z : Bool) (c : Nat) :
    (fun ds => FractionTail d z (c :: ds)) = FractionTail true (z && c == 48) := by
  funext ds rest
  by_cases zero : c = 48
  · simp [FractionTail, zero]
  · simp [FractionTail, zero]

theorem accepts_fraction (d z : Bool) (t : List Nat) :
    (fraction d z).Accepts t ↔ Behind (FractionTail d z) t := by
  induction t generalizing d z with
  | nil =>
    rw [accepts_nil, behind_nil]
    simp [fraction, FractionTail]
  | cons c t ih =>
    rw [behind_cons, fractionTail_cons]
    obtain ⟨digit, step⟩ | ⟨mark, nonzero, step⟩ | ⟨no, zero, stuck⟩ := fraction_cases d z c
    · have other : ¬ExponentMark c := by
        unfold Digit at digit
        unfold ExponentMark
        omega
      rw [accepts_next step, ih]
      simp [digit, other, FractionTail]
    · have other : ¬Digit c := by
        unfold ExponentMark at mark
        unfold Digit
        omega
      rw [accepts_next step, accepts_unsigned]
      simp [other, mark, nonzero, FractionTail]
    · apply iff_of_false (not_accepts stuck t)
      simp only [no, false_and, false_or, FractionTail]
      rintro (⟨empty, -⟩ | ⟨c', more, eq, mark, nonzero, -⟩)
      · cases empty
      · obtain ⟨rfl, -⟩ := List.cons.inj eq
        rw [zero mark] at nonzero
        simp at nonzero

/-- What stands behind the digits of an integer: nothing, a fraction or an exponent. -/
def IntegerTail (rest : List Nat) : Prop :=
  rest = [] ∨ (∃ more, rest = 46 :: more ∧ Behind (FractionTail false false) more) ∨
    ∃ c more, rest = c :: more ∧ ExponentMark c ∧ Behind (ExponentTail false) more

theorem accepts_digits (t : List Nat) :
    digits.Accepts t ↔ Behind (fun _ => IntegerTail) t := by
  induction t with
  | nil =>
    rw [accepts_nil, behind_nil]
    simp [digits, IntegerTail]
  | cons c t ih =>
    rw [behind_cons]
    obtain ⟨digit, step⟩ | ⟨rfl, step⟩ | ⟨mark, step⟩ | ⟨no, no', no'', stuck⟩ := digits_cases c
    · have other : c ≠ 46 ∧ ¬ExponentMark c := by
        unfold Digit at digit
        unfold ExponentMark
        omega
      rw [accepts_next step, ih]
      simp [digit, other, IntegerTail]
    · rw [accepts_next step, accepts_fraction]
      simp [point_apart, IntegerTail]
    · have other : ¬Digit c ∧ c ≠ 46 := by
        unfold ExponentMark at mark
        unfold Digit
        omega
      rw [accepts_next step, accepts_unsigned]
      simp [other, mark, IntegerTail]
    · apply iff_of_false (not_accepts stuck t)
      simp [no, no', no'', IntegerTail]

theorem accepts_zero (t : List Nat) :
    (firstNumberState 48).Accepts t ↔
      t = [] ∨ ∃ more, t = 46 :: more ∧ Behind (FractionTail false true) more := by
  cases t with
  | nil =>
    rw [accepts_nil]
    simp [firstNumberState]
  | cons c t =>
    obtain ⟨rfl, step⟩ | ⟨no, stuck⟩ := zero_cases c
    · rw [accepts_next step, accepts_fraction]
      simp
    · apply iff_of_false (not_accepts stuck t)
      simp [no]

end Languages

section Numbers

/-- The numbers without a minus that are read. -/
def LenientUnsigned (t : List Nat) : Prop :=
  (∃ more, t = 48 :: more ∧
    (more = [] ∨ ∃ u, more = 46 :: u ∧ Behind (FractionTail false true) u)) ∨
  ∃ d more, t = d :: more ∧ (49 ≤ d ∧ d ≤ 57) ∧ Behind (fun _ => IntegerTail) more

/-- The numbers that are read. -/
def LenientNumber (t : List Nat) : Prop :=
  LenientUnsigned t ∨ ∃ u, t = 45 :: u ∧ LenientUnsigned u

theorem accepts_minus (t : List Nat) :
    (firstNumberState 45).Accepts t ↔ LenientUnsigned t := by
  cases t with
  | nil =>
    rw [accepts_nil]
    simp [firstNumberState, LenientUnsigned]
  | cons c t =>
    obtain ⟨rfl, step⟩ | ⟨digit, step⟩ | ⟨no, stuck⟩ := minus_cases c
    · rw [accepts_next step, accepts_zero]
      simp [LenientUnsigned]
    · have other : c ≠ 48 := by omega
      rw [accepts_next step, accepts_digits]
      simp [LenientUnsigned, digit, other]
    · apply iff_of_false (not_accepts stuck t)
      unfold Digit at no
      rintro (⟨more, eq, -⟩ | ⟨d, more, eq, first, -⟩)
      · obtain ⟨rfl, -⟩ := List.cons.inj eq
        omega
      · obtain ⟨rfl, -⟩ := List.cons.inj eq
        omega

/-- The automaton accepts the lenient numbers. -/
theorem accepts_iff (c : Nat) (t : List Nat) :
    isNumberStart c = true ∧ (firstNumberState c).Accepts t ↔ LenientNumber (c :: t) := by
  obtain rfl | positive | rfl | other :
      c = 48 ∨ (49 ≤ c ∧ c ≤ 57) ∨ c = 45 ∨ (¬(48 ≤ c ∧ c ≤ 57) ∧ c ≠ 45) := by omega
  · rw [accepts_zero]
    simp [LenientNumber, LenientUnsigned, isNumberStart]
  · have upper : c ≤ '9'.toNat := positive.2
    have start : isNumberStart c = true := by
      unfold isNumberStart
      rw [decide_eq_true (Nat.le_trans (by decide) positive.1), decide_eq_true upper]
      rfl
    have zero : c ≠ 48 := by omega
    have minus : c ≠ 45 := by omega
    rw [firstNumberState_digit positive.1, accepts_digits]
    simp [LenientNumber, LenientUnsigned, start, zero, minus, positive]
  · rw [accepts_minus]
    simp [LenientNumber, LenientUnsigned, isNumberStart]
  · have start : isNumberStart c = false := by
      unfold isNumberStart
      rw [Bool.or_eq_false_iff, Bool.and_eq_false_iff, decide_eq_false_iff_not,
        decide_eq_false_iff_not, beq_eq_false_iff_ne]
      exact ⟨not_and_or.mp other.1, other.2⟩
    apply iff_of_false (fun accepted => absurd accepted.1 (by rw [start]; decide))
    rintro ((⟨more, eq, -⟩ | ⟨d, more, eq, first, -⟩) | ⟨u, eq, -⟩)
    · obtain ⟨rfl, -⟩ := List.cons.inj eq
      omega
    · obtain ⟨rfl, -⟩ := List.cons.inj eq
      omega
    · exact other.2 (List.cons.inj eq).1

end Numbers

end Haxe.Source.Json
