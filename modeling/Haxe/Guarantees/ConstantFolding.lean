import Haxe.Source.Optimization.OptimizerTexpr
import Mathlib.Algebra.Ring.Int.Defs
import Mathlib.Algebra.Ring.Nat

/-!
# Folded operators keep their value

What `optimize_binop` and `optimize_unop` put in the place of an operation on integers has the
value of that operation in 32 bits, as long as no constant is shifted by a constant count outside
of a word. A sum, a difference or a product that does not fit stays as it is; the other operators
wrap.
-/

namespace Haxe.Guarantees.ConstantFolding

open Source Source.Core Source.Optimization.OptimizerTexpr
open Source.Syntax (Binop Unop UnopFlag)

section Semantics

/-- The values of expressions, of which integers and booleans are looked at. -/
inductive Value (V : Type) where
  | int (i : BitVec 32)
  | bool (b : Bool)
  | other (v : V)

/-- The value of all other expressions, with the state behind; none is an exception. -/
structure Semantics (σ V : Type) where
  constant : TConstant → V
  enumField : Core.Path → String → V
  construct : Core.Path → String → List TExpr → σ → Option (V × σ)
  expression : TExpr → σ → Option (Value V × σ)
  operator : Binop → Value V → Value V → Option (Value V)
  prefix_ : Unop → Value V → Option (Value V)

variable {σ V : Type}

/-- An operator on integers: they wrap in 32 bits, and shift counts are taken modulo 32. -/
def arith : Binop → BitVec 32 → BitVec 32 → Option (Value V)
  | .opAdd, a, b => some (.int (a + b))
  | .opSub, a, b => some (.int (a - b))
  | .opMult, a, b => some (.int (a * b))
  | .opAnd, a, b => some (.int (a &&& b))
  | .opOr, a, b => some (.int (a ||| b))
  | .opXor, a, b => some (.int (a ^^^ b))
  | .opShl, a, b => some (.int (a <<< (b.toNat % 32)))
  | .opShr, a, b => some (.int (a.sshiftRight (b.toNat % 32)))
  | .opUShr, a, b => some (.int (a >>> (b.toNat % 32)))
  | .opEq, a, b => some (.bool (a == b))
  | .opNotEq, a, b => some (.bool (a != b))
  | .opGt, a, b => some (.bool (decide (b.toInt < a.toInt)))
  | .opGte, a, b => some (.bool (decide (b.toInt ≤ a.toInt)))
  | .opLt, a, b => some (.bool (decide (a.toInt < b.toInt)))
  | .opLte, a, b => some (.bool (decide (a.toInt ≤ b.toInt)))
  | _, _, _ => none

/-- The operators that are given for integers. -/
def intOperator (op : Binop) : Bool := (@arith Unit op 0 0).isSome

variable (sem : Semantics σ V)

def binary (op : Binop) (v1 v2 : Value V) : Option (Value V) :=
  match v1, v2 with
  | .int a, .int b => arith op a b
  | v1, v2 => sem.operator op v1 v2

def unary (op : Unop) (v : Value V) : Option (Value V) :=
  match op, v with
  | .neg, .int i => some (.int (-i))
  | .negBits, .int i => some (.int (~~~i))
  | .not, .bool b => some (.bool !b)
  | op, v => sem.prefix_ op v

/-- The value of an expression; the operands are evaluated from the left. -/
@[grind =] def eval : TExpr → σ → Option (Value V × σ)
  | .tConst (.tInt i), s => some (.int i, s)
  | .tConst (.tBool b), s => some (.bool b, s)
  | .tConst c, s => some (.other (sem.constant c), s)
  | .tParenthesis e, s => eval e s
  | .tBinop op e1 e2, s =>
    if intOperator op then
      (eval e1 s).bind fun r1 => (eval e2 r1.2).bind fun r2 =>
        (binary sem op r1.1 r2.1).map fun v => (v, r2.2)
    else sem.expression (.tBinop op e1 e2) s
  | .tUnop op flag e, s =>
    if op = .not ∨ op = .neg ∨ op = .negBits then
      (eval e s).bind fun r => (unary sem op r.1).map fun v => (v, r.2)
    else sem.expression (.tUnop op flag e) s
  | .tField _ (.fEnum en ef), s => some (.other (sem.enumField en ef), s)
  | .tCall (.tField _ (.fEnum en ef)) el, s =>
    (sem.construct en ef el s).map fun r => (.other r.1, r.2)
  | e, s => sem.expression e s

/-- Whenever the expression has a value, that is an integer. -/
def IsInt (e : TExpr) : Prop := ∀ s v s', eval sem e s = some (v, s') → ∃ i, v = .int i

end Semantics

/-- Fits in 32 bits. -/
def Fits (n : Int) : Prop := -2147483648 ≤ n ∧ n < 2147483648

section Overflow

theorem bmod_eq_iff_fits (n : Int) : n.bmod (2 ^ 32) = n ↔ Fits n := by
  unfold Fits
  constructor
  · intro same
    have low := @Int.le_bmod n (2 ^ 32) (by decide)
    have high := @Int.bmod_lt n (2 ^ 32) (by decide)
    omega
  · intro fits
    exact Int.bmod_eq_of_le (by omega) (by omega)

theorem checkOverflow_spec (e : TExpr) {v : BitVec 64} {w : BitVec 32} {n : Int}
    (exact_ : v.toInt = n) (wraps : w.toInt = n.bmod (2 ^ 32)) :
    (Fits n → checkOverflow e v = tInt w) ∧ (¬ Fits n → checkOverflow e v = e) := by
  have low : v.truncate 32 = w := by
    rw [← BitVec.toInt_inj, wraps, ← exact_, BitVec.truncate_eq_setWidth,
      ← BitVec.signExtend_eq_setWidth_of_le v (by decide)]
    exact BitVec.toInt_signExtend_eq_toInt_bmod_of_le v (by decide)
  have same : w.signExtend 64 = v ↔ Fits n := by
    rw [← BitVec.toInt_inj, BitVec.toInt_signExtend_of_le (by decide), wraps, exact_,
      bmod_eq_iff_fits]
  unfold checkOverflow
  rw [low]
  constructor
  · intro fits
    exact if_neg (fun differs => differs (same.mpr fits))
  · intro wide
    exact if_pos (fun eq => wide (same.mp eq))

/-- What the operators give that are computed in 64 bits. -/
def exact64 : Binop → BitVec 32 → BitVec 32 → Option Int
  | .opAdd, a, b => some (a.toInt + b.toInt)
  | .opSub, a, b => some (a.toInt - b.toInt)
  | .opMult, a, b => some (a.toInt * b.toInt)
  | _, _, _ => none

theorem signExtend_bounds (a : BitVec 32) :
    (a.signExtend 64).toInt = a.toInt ∧ -2147483648 ≤ a.toInt ∧ a.toInt < 2147483648 := by
  have low := a.le_toInt
  have high := a.toInt_lt
  exact ⟨BitVec.toInt_signExtend_of_le (by decide), by omega, by omega⟩

theorem mul_bounds (a b : BitVec 32) :
    -4611686018427387904 ≤ a.toInt * b.toInt ∧ a.toInt * b.toInt ≤ 4611686018427387904 :=
  ⟨BitVec.le_toInt_mul_toInt, BitVec.toInt_mul_toInt_le⟩

variable {F V : Type} (floats : Floats F) (shifts : Shifts)

theorem foldInts_exact (e : TExpr) {op : Binop} {a b : BitVec 32} {n : Int}
    (exact_ : exact64 op a b = some n) :
    (Fits n → ∃ w, arith (V := V) op a b = some (.int w) ∧
      foldInts floats shifts e op a b = tInt w) ∧
    (¬ Fits n → foldInts floats shifts e op a b = e) := by
  obtain ⟨wideA, lowA, highA⟩ := signExtend_bounds a
  obtain ⟨wideB, lowB, highB⟩ := signExtend_bounds b
  cases op with
  | opAdd =>
    obtain rfl := Option.some.inj exact_
    have wide : (a.signExtend 64 + b.signExtend 64).toInt = a.toInt + b.toInt := by
      rw [BitVec.toInt_add, wideA, wideB]
      exact Int.bmod_eq_of_le (by omega) (by omega)
    have spec := checkOverflow_spec e wide (BitVec.toInt_add a b)
    exact ⟨fun fits => ⟨_, rfl, spec.1 fits⟩, spec.2⟩
  | opSub =>
    obtain rfl := Option.some.inj exact_
    have wide : (a.signExtend 64 - b.signExtend 64).toInt = a.toInt - b.toInt := by
      rw [BitVec.toInt_sub, wideA, wideB]
      exact Int.bmod_eq_of_le (by omega) (by omega)
    have spec := checkOverflow_spec e wide BitVec.toInt_sub
    exact ⟨fun fits => ⟨_, rfl, spec.1 fits⟩, spec.2⟩
  | opMult =>
    obtain rfl := Option.some.inj exact_
    have bounds := mul_bounds a b
    have wide : (a.signExtend 64 * b.signExtend 64).toInt = a.toInt * b.toInt := by
      rw [BitVec.toInt_mul, wideA, wideB]
      exact Int.bmod_eq_of_le (by omega) (by omega)
    have spec := checkOverflow_spec e wide (BitVec.toInt_mul a b)
    exact ⟨fun fits => ⟨_, rfl, spec.1 fits⟩, spec.2⟩
  | _ => exact nomatch exact_

/-- Shifts a word. -/
def isShift : Binop → Bool
  | .opShl | .opShr | .opUShr => true
  | _ => false

theorem compare32_spec (a b : BitVec 32) :
    (compare32 a b == 0) = (a == b) ∧ (compare32 a b < 0 ↔ a.toInt < b.toInt) ∧
      (0 < compare32 a b ↔ b.toInt < a.toInt) := by
  have same : a = b ↔ a.toInt = b.toInt := BitVec.toInt_inj.symm
  unfold compare32
  by_cases less : a.toInt < b.toInt
  · have differ : a ≠ b := fun eq => by have := same.mp eq; omega
    rw [if_pos less, beq_false_of_ne differ]
    refine ⟨by decide, by omega, by omega⟩
  · by_cases equal : a.toInt = b.toInt
    · obtain rfl := same.mpr equal
      rw [if_neg less, if_pos rfl, beq_self_eq_true a]
      refine ⟨by decide, by omega, by omega⟩
    · have differ : a ≠ b := fun eq => equal (same.mp eq)
      rw [if_neg less, if_neg equal, beq_false_of_ne differ]
      refine ⟨by decide, by omega, by omega⟩

end Overflow

section Values

variable {F σ V : Type} {floats : Floats F} {shifts : Shifts} {types : TypeTests}
variable {sem : Semantics σ V} {e : TExpr} {op : Binop} {a b : BitVec 32}

theorem eval_tInt (i : BitVec 32) (s : σ) : eval sem (tInt i) s = some (.int i, s) := by
  unfold tInt eval
  rfl

theorem eval_tBool (c : Bool) (s : σ) : eval sem (tBool c) s = some (.bool c, s) := by
  unfold tBool eval
  rfl

/-- Two constants are folded to the value of the operator, or not at all. -/
theorem foldInts_value (documented : shifts.Documented) (given : intOperator op = true)
    (count : isShift op = true → b.toNat < 32) :
    foldInts floats shifts e op a b = e ∨ ∃ v, arith op a b = some v ∧
      ∀ s, eval sem (foldInts floats shifts e op a b) s = some (v, s) := by
  have checked : ∀ n, exact64 op a b = some n → foldInts floats shifts e op a b = e ∨
      ∃ v, arith op a b = some v ∧
        ∀ s, eval sem (foldInts floats shifts e op a b) s = some (v, s) := by
    intro n exact_
    have spec := foldInts_exact (V := V) floats shifts e exact_
    by_cases fits : Fits n
    · obtain ⟨w, value, folded⟩ := spec.1 fits
      exact .inr ⟨_, value, fun s => by rw [folded, eval_tInt]⟩
    · exact .inl (spec.2 fits)
  have shifted : ∀ {n : Nat}, b.toNat = n → n < 32 → b.toInt = (n : Nat) ∧ b.toNat % 32 = n := by
    intro n eq small
    have positive : b.toInt = b.toNat := BitVec.toInt_eq_toNat_of_lt (by omega)
    omega
  have folded : ∀ {c d : Bool}, c = d → ∀ s, eval sem (tBool c) s = some (.bool d, s) := by
    rintro c d rfl s
    exact eval_tBool c s
  obtain ⟨equal, less, greater⟩ := compare32_spec a b
  cases op with
  | opAdd => exact checked _ rfl
  | opSub => exact checked _ rfl
  | opMult => exact checked _ rfl
  | opAnd => exact .inr ⟨_, rfl, eval_tInt _⟩
  | opOr => exact .inr ⟨_, rfl, eval_tInt _⟩
  | opXor => exact .inr ⟨_, rfl, eval_tInt _⟩
  | opShl =>
    obtain ⟨int, mod⟩ := shifted rfl (count rfl)
    refine .inr ⟨_, rfl, fun s => ?_⟩
    unfold foldInts
    rw [int, documented.left a _ (count rfl), mod, eval_tInt]
  | opShr =>
    obtain ⟨int, mod⟩ := shifted rfl (count rfl)
    refine .inr ⟨_, rfl, fun s => ?_⟩
    unfold foldInts
    rw [int, documented.right a _ (count rfl), mod, eval_tInt]
  | opUShr =>
    obtain ⟨int, mod⟩ := shifted rfl (count rfl)
    refine .inr ⟨_, rfl, fun s => ?_⟩
    unfold foldInts
    rw [int, documented.rightLogical a _ (count rfl), mod, eval_tInt]
  | opEq => exact .inr ⟨_, rfl, folded equal⟩
  | opNotEq => exact .inr ⟨_, rfl, folded (congrArg not equal)⟩
  | opGt => exact .inr ⟨_, rfl, folded (decide_eq_decide.mpr greater)⟩
  | opGte => exact .inr ⟨_, rfl, folded (decide_eq_decide.mpr (by omega))⟩
  | opLt => exact .inr ⟨_, rfl, folded (decide_eq_decide.mpr less)⟩
  | opLte => exact .inr ⟨_, rfl, folded (decide_eq_decide.mpr (by omega))⟩
  | _ => exact absurd given Bool.false_ne_true

theorem isInt_const {c : TConstant} (isInt : IsInt sem (.tConst c)) (s : σ) :
    ∃ i, c = .tInt i := by
  cases c with
  | tInt i => exact ⟨i, rfl⟩
  | tBool b =>
    obtain ⟨i, other⟩ := isInt s (.bool b) s (eval_tBool b s)
    exact nomatch other
  | _ =>
    obtain ⟨i, other⟩ := isInt s _ s (by unfold eval; rfl)
    exact nomatch other

theorem isInt_field {e' : TExpr} {en : Core.Path} {ef : String}
    (isInt : IsInt sem (.tField e' (.fEnum en ef))) (s : σ) : False := by
  obtain ⟨i, other⟩ := isInt s _ s (by unfold eval; rfl)
  exact nomatch other

/-- An operand that has the values of an integer is no constructor of an enum with arguments. -/
theorem enumCall_int {e' other : TExpr} {el : List TExpr} (isInt : IsInt sem other) (s : σ)
    (folded : enumCall e op other el = .ok e') : e' = e := by
  unfold enumCall at folded
  split at folded
  · obtain ⟨i, eq⟩ := isInt_const isInt s
    exact nomatch eq
  · obtain ⟨i, eq⟩ := isInt_const isInt s
    exact nomatch eq
  · exact (Except.ok.inj folded).symm
  · exact nomatch folded

theorem foldOthers_int {e1 e2 e' : TExpr} (int1 : IsInt sem e1) (int2 : IsInt sem e2) (s : σ)
    (folded : foldOthers e op e1 e2 = .ok e') : e' = e := by
  unfold foldOthers at folded
  split at folded
  · obtain ⟨i, eq⟩ := isInt_const int1 s
    exact nomatch eq
  · obtain ⟨i, eq⟩ := isInt_const int2 s
    exact nomatch eq
  · exact (isInt_field int1 s).elim
  · exact enumCall_int int1 s folded
  · exact enumCall_int int2 s folded
  · exact (Except.ok.inj folded).symm

theorem foldOperands_int {e1 e2 e' : TExpr} (int1 : IsInt sem e1) (int2 : IsInt sem e2) (s : σ)
    (folded : foldOperands floats shifts e op e1 e2 = .ok e') :
    e' = e ∨ ∃ a b, e1 = tInt a ∧ e2 = tInt b ∧ e' = foldInts floats shifts e op a b := by
  have const : ∀ {c : TConstant}, IsInt sem (.tConst c) → ∃ i, c = .tInt i :=
    fun isInt => isInt_const isInt s
  unfold foldOperands at folded
  split at folded
  · obtain ⟨i, eq⟩ := const int1
    exact nomatch eq
  · obtain ⟨i, eq⟩ := const int2
    exact nomatch eq
  · obtain ⟨i, eq⟩ := const int1
    exact nomatch eq
  · exact .inr ⟨_, _, rfl, rfl, (Except.ok.inj folded).symm⟩
  · obtain ⟨i, eq⟩ := const int1
    exact nomatch eq
  · obtain ⟨i, eq⟩ := const int1
    exact nomatch eq
  · obtain ⟨i, eq⟩ := const int2
    exact nomatch eq
  · obtain ⟨i, eq⟩ := const int1
    exact nomatch eq
  · next _ ints _ _ _ _ =>
    obtain ⟨a, rfl⟩ := const int1
    obtain ⟨b, rfl⟩ := const int2
    exact (ints a b rfl rfl).elim
  · exact .inl (foldOthers_int int1 int2 s folded)

theorem eval_binop (given : intOperator op = true) (e1 e2 : TExpr) (s : σ) :
    eval sem (.tBinop op e1 e2) s =
      (eval sem e1 s).bind fun r1 => (eval sem e2 r1.2).bind fun r2 =>
        (binary sem op r1.1 r2.1).map fun v => (v, r2.2) := by
  rw [eval, if_pos given]

/-- The value of an operation is that of its first operand, if the second is a constant. -/
theorem eval_right {e1 : TExpr} (given : intOperator op = true) (int1 : IsInt sem e1)
    (neutral : ∀ i, arith (V := V) op i b = some (.int i)) (s : σ) :
    eval sem (.tBinop op e1 (tInt b)) s = eval sem e1 s := by
  rw [eval_binop given]
  cases first : eval sem e1 s with
  | none => rfl
  | some r =>
    obtain ⟨i, eq⟩ := int1 s r.1 r.2 first
    rw [Option.bind_some, eval_tInt, Option.bind_some, eq]
    show (arith op i b).map _ = _
    rw [neutral, Option.map_some, ← eq]

theorem eval_left {e2 : TExpr} (given : intOperator op = true) (int2 : IsInt sem e2)
    (neutral : ∀ i, arith (V := V) op a i = some (.int i)) (s : σ) :
    eval sem (.tBinop op (tInt a) e2) s = eval sem e2 s := by
  rw [eval_binop given, eval_tInt, Option.bind_some]
  cases second : eval sem e2 s with
  | none => rfl
  | some r =>
    obtain ⟨i, eq⟩ := int2 s r.1 r.2 second
    rw [Option.bind_some, eq]
    show (arith op a i).map _ = _
    rw [neutral, Option.map_some, ← eq]

theorem intOf_eq {e : TExpr} {i : BitVec 32} (const : intOf e = some i) : e = tInt i := by
  unfold intOf at const
  split at const
  · rw [Option.some.inj const]
    rfl
  · exact nomatch const

theorem floatOf_int {e : TExpr} (isInt : IsInt sem e) (s : σ) (test : String → Bool) :
    (floatOf e).any test = false := by
  unfold floatOf
  split
  · obtain ⟨i, eq⟩ := isInt_const isInt s
    exact nomatch eq
  · rfl

theorem optimizeBinop_value {e1 e2 e' : TExpr} (documented : shifts.Documented)
    (given : intOperator op = true) (int1 : IsInt sem e1) (int2 : IsInt sem e2)
    (count : isShift op = true → ∀ a b, e1 = tInt a → e2 = tInt b → b.toNat < 32)
    (folded : optimizeBinop floats shifts types (.tBinop op e1 e2) op e1 e2 = .ok e') (s : σ) :
    eval sem e' s = eval sem (.tBinop op e1 e2) s := by
  have same : ∀ {w i : BitVec 32}, w = i → some (Value.int (V := V) w) = some (.int i) := by
    rintro w i rfl
    rfl
  unfold optimizeBinop at folded
  simp only [floatOf_int int1 s, floatOf_int int2 s, Bool.false_eq_true, false_and, if_false]
    at folded
  split at folded
  · next neutral =>
    obtain ⟨const, rfl, -⟩ := neutral
    obtain rfl := intOf_eq const
    obtain rfl := Except.ok.inj folded
    exact (eval_left given int2 (fun i => same (BitVec.zero_add i)) s).symm
  · split at folded
    · next neutral =>
      obtain ⟨const, rfl⟩ := neutral
      obtain rfl := intOf_eq const
      obtain rfl := Except.ok.inj folded
      exact (eval_left given int2 (fun i => same (BitVec.one_mul i)) s).symm
    · split at folded
      · next neutral =>
        obtain ⟨const, which⟩ := neutral
        obtain rfl := intOf_eq const
        obtain rfl := Except.ok.inj folded
        rcases which with ⟨rfl, -⟩ | rfl | rfl | rfl
        · exact (eval_right given int1 (fun i => same (BitVec.add_zero i)) s).symm
        · exact (eval_right given int1 (fun i => same (BitVec.sub_zero i)) s).symm
        · exact (eval_right given int1 (fun i => same (BitVec.sshiftRight_zero)) s).symm
        · have unshifted : ∀ i : BitVec 32, i <<< ((0 : BitVec 32).toNat % 32) = i :=
            fun i => BitVec.shiftLeft_zero i
          exact (eval_right given int1 (fun i => same (unshifted i)) s).symm
      · split at folded
        · next neutral =>
          obtain ⟨const, rfl⟩ := neutral
          obtain rfl := intOf_eq const
          obtain rfl := Except.ok.inj folded
          exact (eval_right given int1 (fun i => same (BitVec.mul_one i)) s).symm
        · rcases foldOperands_int int1 int2 s folded with rfl | ⟨a, b, rfl, rfl, rfl⟩
          · rfl
          · have small : isShift op = true → b.toNat < 32 := fun shift => count shift a b rfl rfl
            rcases foldInts_value documented given small with same | ⟨v, value, constant⟩
            · rw [same]
            · rw [constant s, eval_binop given, eval_tInt, Option.bind_some, eval_tInt,
                Option.bind_some]
              show some (v, s) = (arith op a b).map fun v => (v, s)
              rw [value, Option.map_some]

/-- A sum, difference or product of constants that does not fit is left as it is. -/
theorem optimizeBinop_overflow {n : Int} (exact_ : exact64 op a b = some n) (wide : ¬ Fits n) :
    optimizeBinop floats shifts types e op (tInt a) (tInt b) = .ok e := by
  have inside : ∀ i : BitVec 32, n ≠ i.toInt := by
    rintro i rfl
    obtain ⟨-, low, high⟩ := signExtend_bounds i
    exact wide ⟨low, high⟩
  have zero : (0 : BitVec 32).toInt = 0 := by decide
  have one : (1 : BitVec 32).toInt = 1 := by decide
  have noSum : ¬ (intOf (tInt a) = some 0 ∧ op = .opAdd ∧ types.isNumeric (tInt b)) := by
    rintro ⟨const, rfl, -⟩
    obtain rfl : a = 0 := Option.some.inj const
    obtain rfl := Option.some.inj exact_
    exact inside b (by omega)
  have noProduct : ¬ (intOf (tInt a) = some 1 ∧ op = .opMult) := by
    rintro ⟨const, rfl⟩
    obtain rfl : a = 1 := Option.some.inj const
    obtain rfl := Option.some.inj exact_
    exact inside b (by rw [one, Int.one_mul])
  have noZero : ¬ (intOf (tInt b) = some 0 ∧ (op = .opAdd ∧ types.isNumeric (tInt a) ∨
      op = .opSub ∨ op = .opShr ∨ op = .opShl)) := by
    rintro ⟨const, which⟩
    obtain rfl : b = 0 := Option.some.inj const
    rcases which with ⟨rfl, -⟩ | rfl | rfl | rfl
    · obtain rfl := Option.some.inj exact_
      exact inside a (by omega)
    · obtain rfl := Option.some.inj exact_
      exact inside a (by omega)
    · exact nomatch exact_
    · exact nomatch exact_
  have noOne : ¬ (intOf (tInt b) = some 1 ∧ op = .opMult) := by
    rintro ⟨const, rfl⟩
    obtain rfl : b = 1 := Option.some.inj const
    obtain rfl := Option.some.inj exact_
    exact inside a (by rw [one, Int.mul_one])
  have noFloat : ∀ (i : BitVec 32) (test : String → Bool), (floatOf (tInt i)).any test = false :=
    fun i test => rfl
  unfold optimizeBinop
  simp only [noFloat, Bool.false_eq_true, false_and, if_false, if_neg noSum, if_neg noProduct,
    if_neg noZero, if_neg noOne]
  exact congrArg Except.ok ((foldInts_exact (V := Unit) floats shifts e exact_).2 wide)

end Values

section Unary

variable {F σ V : Type} {floats : Floats F} {types : TypeTests} {sem : Semantics σ V}

theorem optimizeUnop_const (op : Unop) (flag : UnopFlag) (i : BitVec 32) (s : σ) :
    eval sem (optimizeUnop floats types (.tUnop op flag (tInt i)) op (tInt i)) s =
      eval sem (.tUnop op flag (tInt i)) s := by
  cases op with
  | neg =>
    rw [eval, if_pos (.inr (.inl rfl)), eval_tInt]
    exact eval_tInt _ s
  | negBits =>
    rw [eval, if_pos (.inr (.inr rfl)), eval_tInt]
    exact eval_tInt _ s
  | _ => rfl

/-- The other comparison has the negated result. -/
theorem negated_arith {op op' : Binop} {isInt : Bool} (negates : negated isInt op = some op')
    (a b : BitVec 32) :
    ∃ c, arith (V := V) op a b = some (.bool c) ∧ arith (V := V) op' a b = some (.bool !c) := by
  have strict : ∀ m n : Int, decide (m ≤ n) = !decide (n < m) := by
    intro m n
    rw [← decide_not]
    exact decide_eq_decide.mpr (by omega)
  have weak : ∀ m n : Int, decide (n < m) = !decide (m ≤ n) := by
    intro m n
    rw [strict, Bool.not_not]
  cases op with
  | opEq =>
    obtain rfl := Option.some.inj negates
    exact ⟨_, rfl, rfl⟩
  | opNotEq =>
    obtain rfl := Option.some.inj negates
    exact ⟨_, rfl, by rw [bne, Bool.not_not]; rfl⟩
  | opGt =>
    cases isInt with
    | false => exact nomatch negates
    | true =>
      obtain rfl := Option.some.inj negates
      exact ⟨_, rfl, congrArg (fun c => some (Value.bool c)) (strict a.toInt b.toInt)⟩
  | opGte =>
    cases isInt with
    | false => exact nomatch negates
    | true =>
      obtain rfl := Option.some.inj negates
      exact ⟨_, rfl, congrArg (fun c => some (Value.bool c)) (weak b.toInt a.toInt)⟩
  | opLt =>
    cases isInt with
    | false => exact nomatch negates
    | true =>
      obtain rfl := Option.some.inj negates
      exact ⟨_, rfl, congrArg (fun c => some (Value.bool c)) (strict b.toInt a.toInt)⟩
  | opLte =>
    cases isInt with
    | false => exact nomatch negates
    | true =>
      obtain rfl := Option.some.inj negates
      exact ⟨_, rfl, congrArg (fun c => some (Value.bool c)) (weak a.toInt b.toInt)⟩
  | _ => exact nomatch negates

theorem eval_not (flag : UnopFlag) (e : TExpr) (s : σ) :
    eval sem (.tUnop .not flag e) s =
      (eval sem e s).bind fun r => (unary sem .not r.1).map fun v => (v, r.2) := by
  rw [eval, if_pos (.inl rfl)]

theorem intOperator_of_arith {op : Binop} {a b : BitVec 32} {v : Value V}
    (value : arith op a b = some v) : intOperator op = true := by
  cases op with
  | opAssignOp op => exact nomatch value
  | _ => first | rfl | exact nomatch value

/-- The negation of an expression that is evaluated like a comparison of two integers. -/
theorem negateBinop_value {op : Binop} {e1 e2 esub : TExpr} (flag : UnopFlag)
    (int1 : IsInt sem e1) (int2 : IsInt sem e2)
    (like : ∀ s, eval sem esub s = eval sem (.tBinop op e1 e2) s) (s : σ) :
    eval sem (negateBinop types (.tUnop .not flag esub) op e1 e2) s =
      eval sem (.tUnop .not flag esub) s := by
  unfold negateBinop
  split
  · next op' negates =>
    obtain ⟨c, value, other⟩ := negated_arith (V := V) negates 0 0
    rw [eval_not, like, eval_binop (intOperator_of_arith value),
      eval_binop (intOperator_of_arith other)]
    cases first : eval sem e1 s with
    | none => rfl
    | some r =>
      obtain ⟨a, eq⟩ := int1 s r.1 r.2 first
      rw [Option.bind_some, Option.bind_some]
      cases second : eval sem e2 r.2 with
      | none => rfl
      | some r' =>
        obtain ⟨b, eq'⟩ := int2 r.2 r'.1 r'.2 second
        obtain ⟨c, value, other⟩ := negated_arith (V := V) negates a b
        rw [Option.bind_some, Option.bind_some, eq, eq']
        show (arith op' a b).map _ = ((arith op a b).map _).bind _
        rw [value, other]
        rfl
  · rfl

end Unary

section Folding

variable {F σ V : Type}

/-- Operators on integers are only replaced by what has their value. -/
structure Agrees (floats : Floats F) (shifts : Shifts) (types : TypeTests) (sem : Semantics σ V) :
    Prop where
  binop : ∀ op e1 e2 e', intOperator op = true → IsInt sem e1 → IsInt sem e2 →
    (isShift op = true → ∀ a b, e1 = tInt a → e2 = tInt b → b.toNat < 32) →
    optimizeBinop floats shifts types (.tBinop op e1 e2) op e1 e2 = .ok e' →
      ∀ s, eval sem e' s = eval sem (.tBinop op e1 e2) s
  overflow : ∀ op a b n, exact64 op a b = some n → ¬ Fits n →
    optimizeBinop floats shifts types (.tBinop op (tInt a) (tInt b)) op (tInt a) (tInt b) =
      .ok (.tBinop op (tInt a) (tInt b))
  unop : ∀ op flag i s,
    eval sem (optimizeUnop floats types (.tUnop op flag (tInt i)) op (tInt i)) s =
      eval sem (.tUnop op flag (tInt i)) s
  negation : ∀ flag op e1 e2, IsInt sem e1 → IsInt sem e2 →
    ∀ esub, esub = .tBinop op e1 e2 ∨ esub = .tParenthesis (.tBinop op e1 e2) →
      ∀ s, eval sem (optimizeUnop floats types (.tUnop .not flag esub) .not esub) s =
        eval sem (.tUnop .not flag esub) s

theorem folding_agrees (floats : Floats F) (shifts : Shifts) (types : TypeTests)
    (sem : Semantics σ V) (documented : shifts.Documented) : Agrees floats shifts types sem where
  binop := fun op e1 e2 e' given int1 int2 count folded s =>
    optimizeBinop_value documented given int1 int2 count folded s
  overflow := fun op a b n exact_ wide => optimizeBinop_overflow exact_ wide
  unop := optimizeUnop_const
  negation := by
    rintro flag op e1 e2 int1 int2 esub (rfl | rfl) s
    · exact negateBinop_value flag int1 int2 (fun s => rfl) s
    · exact negateBinop_value flag int1 int2 (fun s => by rw [eval]) s

/-- Shifts that take the count modulo 32. -/
def masked : Shifts where
  left := fun a n => a <<< (n % 32).toNat
  right := fun a n => a.sshiftRight (n % 32).toNat
  rightLogical := fun a n => a >>> (n % 32).toNat

theorem masked_documented : masked.Documented := by
  have count : ∀ n : Nat, n < 32 → ((n : Int) % 32).toNat = n := by omega
  exact ⟨fun a n small => congrArg (a <<< ·) (count n small),
    fun a n small => congrArg a.sshiftRight (count n small),
    fun a n small => congrArg (a >>> ·) (count n small)⟩

/-- Whole numbers in the place of floats. -/
def whole : Floats Int where
  floatOfString := fun s => s.toInt?.getD 0
  toFloat := BitVec.toInt
  floatRepres := toString
  add := (· + ·)
  sub := (· - ·)
  mul := (· * ·)
  div := (· / ·)
  finite := fun _ => true
  equal := fun f g => f == g
  compare := fun f g => f - g

/-- Every expression that is not looked at throws. -/
def throwing : Semantics Unit Unit where
  constant := fun _ => ()
  enumField := fun _ _ => ()
  construct := fun _ _ _ _ => none
  expression := fun _ _ => none
  operator := fun _ _ _ => none
  prefix_ := fun _ _ => none

theorem tInt_isInt (i : BitVec 32) : IsInt throwing (tInt i) := by
  intro s v s' value
  rw [eval_tInt] at value
  obtain ⟨rfl, -⟩ := Prod.mk.inj (Option.some.inj value)
  exact ⟨i, rfl⟩

theorem shifted_constant_agrees :
    eval throwing (tInt 0x80000000) () = eval throwing (.tBinop .opShl (tInt 1) (tInt 31)) () := by
  apply (folding_agrees whole masked ⟨fun _ => true, fun _ => false⟩ throwing
    masked_documented).binop .opShl (tInt 1) (tInt 31) (tInt 0x80000000) rfl (tInt_isInt 1)
      (tInt_isInt 31)
  · rintro - a b - count
    obtain rfl : 31 = b := TConstant.tInt.inj (TExpr.tConst.inj count)
    decide
  · rfl

/-- A negation and a shift whose exact results do not fit are folded nevertheless. -/
theorem negation_and_shift_wrap :
    ¬ (∀ i : BitVec 32, ¬ Fits (-i.toInt) →
        optimizeUnop whole ⟨fun _ => true, fun _ => false⟩ (.tUnop .neg .prefixFlag (tInt i)) .neg
          (tInt i) = .tUnop .neg .prefixFlag (tInt i)) ∧
      ¬ (∀ a b : BitVec 32, b.toNat < 32 → ¬ Fits (a.toInt * 2 ^ b.toNat) →
        optimizeBinop whole masked ⟨fun _ => true, fun _ => false⟩
          (.tBinop .opShl (tInt a) (tInt b)) .opShl (tInt a) (tInt b) =
          .ok (.tBinop .opShl (tInt a) (tInt b))) := by
  constructor
  · intro unchanged
    have least := unchanged 0x80000000 (by unfold Fits; decide)
    exact nomatch least
  · intro unchanged
    have highest := unchanged 1 31 (by decide) (by unfold Fits; decide)
    exact nomatch Except.ok.inj highest

end Folding

end Haxe.Guarantees.ConstantFolding
