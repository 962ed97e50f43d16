import Mathlib.Data.List.Basic

/-!
# The operand stack of the JVM

The instructions that move the slots of the operand stack, as the JVM specification gives them, and
values that take several slots.
-/

namespace Haxe.Theory.OperandStack

inductive Instruction where
  | pop | pop2 | dup | dupX1 | dupX2 | dup2 | dup2X1 | dup2X2 | swap
  deriving DecidableEq, Repr

/-- What an instruction does to the slots, of which the top comes first. -/
def Instruction.execute {α : Type} : Instruction → List α → Option (List α)
  | .pop, _ :: rest => some rest
  | .pop2, _ :: _ :: rest => some rest
  | .dup, a :: rest => some (a :: a :: rest)
  | .dupX1, a :: b :: rest => some (a :: b :: a :: rest)
  | .dupX2, a :: b :: c :: rest => some (a :: b :: c :: a :: rest)
  | .dup2, a :: b :: rest => some (a :: b :: a :: b :: rest)
  | .dup2X1, a :: b :: c :: rest => some (a :: b :: c :: a :: b :: rest)
  | .dup2X2, a :: b :: c :: d :: rest => some (a :: b :: c :: d :: a :: b :: rest)
  | .swap, a :: b :: rest => some (b :: a :: rest)
  | _, _ => none

/-- A slot. -/
abbrev Word := BitVec 32

/-- A value of a type takes as many slots as the type does. -/
structure Value {τ : Type} (size : τ → Nat) where
  type : τ
  slots : List Word
  sized : slots.length = size type

variable {τ : Type} {size : τ → Nat}

def slotsOf (values : List (Value size)) : List Word := values.flatMap Value.slots

/-- The slots that the values of some types take. -/
def totalSlots (size : τ → Nat) (types : List τ) : Nat := (types.map size).foldr (· + ·) 0

@[simp] theorem totalSlots_cons (t : τ) (types : List τ) :
    totalSlots size (t :: types) = size t + totalSlots size types := rfl

@[simp] theorem slotsOf_cons (v : Value size) (values : List (Value size)) :
    slotsOf (v :: values) = v.slots ++ slotsOf values := List.flatMap_cons

theorem length_slotsOf (values : List (Value size)) :
    (slotsOf values).length = totalSlots size (values.map Value.type) := by
  induction values with
  | nil => rfl
  | cons v values ih =>
    rw [slotsOf_cons, List.length_append, v.sized, ih, List.map_cons, totalSlots_cons]

/-- A value in one slot. -/
theorem Value.one_slot (v : Value size) (narrow : size v.type = 1) : ∃ a, v.slots = [a] :=
  List.length_eq_one_iff.mp (v.sized.trans narrow)

/-- A value in two slots. -/
theorem Value.two_slots (v : Value size) (wide : size v.type = 2) : ∃ a b, v.slots = [a, b] :=
  List.length_eq_two.mp (v.sized.trans wide)

/-- A value of a type, whose slots are numbered from some word on. -/
def sample (size : τ → Nat) (first : Nat) (t : τ) : Value size where
  type := t
  slots := (List.range (size t)).map fun k => BitVec.ofNat 32 (first + k)
  sized := by rw [List.length_map, List.length_range]

theorem slots_sample (first : Nat) (t : τ) :
    (sample size first t).slots = (List.range (size t)).map fun k => BitVec.ofNat 32 (first + k) :=
  rfl

end Haxe.Theory.OperandStack
