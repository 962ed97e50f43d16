import Mathlib.Algebra.Ring.Int.Defs
import Mathlib.Algebra.Ring.Nat
import Haxe.Source.Macro.EvalBytes

/-!
# 64-bit integers of the interpreter

How an `Int64` of the interpreter passes to a `haxe.Int64` of two words and back.
-/

namespace Haxe.Source.EvalIntegers

/-- The values that the decoders tell apart. A float is kept as `Int32.of_float` makes it, and
an instance with the paths of its classes and interfaces and with its fields by name. -/
inductive Value where
  | vInt32 (i : BitVec 32)
  | vFloat (i : BitVec 32)
  | vInstance (paths : List String) (ifields : List (String × Value))
  | other
  deriving Repr

/-- What a decoder raises: `unexpected_value` with the name of what it expected, or the
`Not_found` of `get_instance_field_index_raise`. -/
inductive Raised where
  | unexpectedValue (expected : String)
  | notFound
  deriving DecidableEq, Repr

def keyInt64 : String := "haxe._Int64.___Int64"

def decodeI32 : Value → Except Raised (BitVec 32)
  | .vInt32 i => .ok i
  | .vFloat i => .ok i
  | _ => .error (.unexpectedValue "int")

/-- A field, at the index that the prototype has for it. -/
def field (ifields : List (String × Value)) (name : String) : Except Raised Value :=
  match ifields.find? fun entry => entry.1 == name with
  | some entry => .ok entry.2
  | none => .error .notFound

def encodeHaxeI64 (low high : BitVec 32) : Value :=
  .vInstance [keyInt64] [("high", .vInt32 high), ("low", .vInt32 low)]

def encodeHaxeI64Direct (i64 : BitVec 64) : Value :=
  let low := i64.setWidth 32
  let high := (i64 >>> 32).setWidth 32
  encodeHaxeI64 low high

def decodeHaxeI64 : Value → Except Raised (BitVec 64)
  | .vInstance paths ifields =>
    if paths.contains keyInt64 then do
      let high ← decodeI32 (← field ifields "high")
      let low ← decodeI32 (← field ifields "low")
      let high64 := high.signExtend 64 <<< 32
      -- the sign of the low word goes into the high one
      let low64 := low.signExtend 64
      return high64 ||| low64
    else .error (.unexpectedValue "haxe.Int64")
  | _ => .error (.unexpectedValue "haxe.Int64")

/-- The low word has a sign that the high word does not already have in every bit. -/
def Plain (high low : BitVec 32) : Prop := low.msb = false ∨ high = -1

instance (high low : BitVec 32) : Decidable (Plain high low) :=
  inferInstanceAs (Decidable (_ ∨ _))

/-- A `haxe.Int64` with the two words. -/
inductive Words (high low : BitVec 32) : Value → Prop
  | mk {paths : List String} {ifields : List (String × Value)}
      (path : paths.contains keyInt64)
      (highField : field ifields "high" = .ok (.vInt32 high))
      (lowField : field ifields "low" = .ok (.vInt32 low)) :
      Words high low (.vInstance paths ifields)

theorem words_encode (low high : BitVec 32) : Words high low (encodeHaxeI64 low high) :=
  .mk (by decide) rfl rfl

theorem decode_words {high low : BitVec 32} {v : Value} (words : Words high low v) :
    decodeHaxeI64 v = .ok (high.signExtend 64 <<< 32 ||| low.signExtend 64) := by
  cases words with
  | mk path highField lowField =>
    simp only [decodeHaxeI64, path, highField, lowField]
    rfl

theorem ored_of_plain {high low : BitVec 32} (plain : Plain high low) :
    high.signExtend 64 <<< 32 ||| low.signExtend 64 = high ++ low := by
  have ones : (-1 : BitVec 32) = BitVec.allOnes 32 := by decide
  apply BitVec.eq_of_getLsbD_eq
  intro i inside
  simp only [BitVec.getLsbD_or, BitVec.getLsbD_signExtend, BitVec.getLsbD_shiftLeft,
    BitVec.getLsbD_append]
  cases plain with
  | inl positive => grind
  | inr full =>
    simp only [full, ones, BitVec.getLsbD_allOnes]
    grind

theorem plain_of_ored {high low : BitVec 32}
    (spelled : high.signExtend 64 <<< 32 ||| low.signExtend 64 = high ++ low) :
    Plain high low := by
  have ones : (-1 : BitVec 32) = BitVec.allOnes 32 := by decide
  cases sign : low.msb with
  | false => exact .inl sign
  | true =>
    -- every bit of the high word has the sign of the low one or-ed in
    refine .inr (BitVec.eq_of_getLsbD_eq fun i inside => ?_)
    have bit := congrArg (fun word => word.getLsbD (i + 32)) spelled
    simp only [BitVec.getLsbD_or, BitVec.getLsbD_signExtend, BitVec.getLsbD_shiftLeft,
      BitVec.getLsbD_append, sign] at bit
    simp only [ones, BitVec.getLsbD_allOnes]
    grind

theorem ored_iff {high low : BitVec 32} :
    high.signExtend 64 <<< 32 ||| low.signExtend 64 = high ++ low ↔ Plain high low :=
  ⟨plain_of_ored, ored_of_plain⟩

/-- The number that two words spell. -/
theorem toInt_words (high low : BitVec 32) :
    (high ++ low).toInt = high.toInt * 2 ^ 32 + low.toNat := by
  have spelled : (high ++ low).toNat = high.toNat * 2 ^ 32 + low.toNat := by
    rw [BitVec.toNat_append, Nat.shiftLeft_eq, Nat.mul_comm,
      ← Nat.two_pow_add_eq_or_of_lt low.isLt, Nat.mul_comm]
  have lowFits := low.isLt
  have highFits := high.isLt
  rw [BitVec.toInt_eq_toNat_cond, BitVec.toInt_eq_toNat_cond, spelled]
  split <;> split <;> omega

/-- An integer is its two words. -/
theorem words_append (i64 : BitVec 64) :
    (i64 >>> 32).setWidth 32 ++ i64.setWidth 32 = i64 := by
  apply BitVec.eq_of_getLsbD_eq
  intro i inside
  simp only [BitVec.getLsbD_append, BitVec.getLsbD_setWidth, BitVec.getLsbD_ushiftRight]
  grind

end Haxe.Source.EvalIntegers
