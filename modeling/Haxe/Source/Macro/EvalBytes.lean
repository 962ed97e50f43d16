import Mathlib.Tactic.SplitIfs

/-!
# Bytes of the interpreter

The readers and writers of `evalBytes.ml`. An `int` has 63 bits, and a write that runs over
the end leaves behind what it had written.
-/

namespace Haxe.Source.EvalBytes

abbrev Bytes := List (BitVec 8)

/-- `Invalid_argument`, of `Bytes.get` and `Bytes.set` -/
def indexOutOfBounds : String := "index out of bounds"

def readByte (this : Bytes) (i : Int) : Except String (BitVec 63) :=
  if i < 0 then .error indexOutOfBounds
  else match this[i.toNat]? with
    | some byte => .ok (byte.setWidth 63)
    | none => .error indexOutOfBounds

def readI32 (this : Bytes) (i : Int) : Except String (BitVec 32) := do
  let ch1 ← readByte this i
  let ch2 ← readByte this (i + 1)
  let ch3 ← readByte this (i + 2)
  let base := (ch1 ||| ch2 <<< 8 ||| ch3 <<< 16).setWidth 32
  let big := (← readByte this (i + 3)).setWidth 32 <<< 24
  return base ||| big

def readI64 (this : Bytes) (i : Int) : Except String (BitVec 64) := do
  let ch1 ← readByte this i
  let ch2 ← readByte this (i + 1)
  let ch3 ← readByte this (i + 2)
  let ch4 ← readByte this (i + 3)
  let base := (ch1 ||| ch2 <<< 8 ||| ch3 <<< 16).signExtend 64
  let small := base ||| ch4.signExtend 64 <<< 24
  let big := (← readI32 this (i + 4)).signExtend 64
  return big <<< 32 ||| small

/-- `Bytes.set` stores the low eight bits of what `Char.unsafe_chr` passes on. -/
@[grind =] def writeByte (i : Int) (v : BitVec 63) : EStateM String Bytes Unit := do
  let this ← get
  if 0 ≤ i ∧ i < this.length then set (this.set i.toNat (v.setWidth 8))
  else throw indexOutOfBounds

def writeI32 (i : Int) (v : BitVec 32) : EStateM String Bytes Unit := do
  let base := v.signExtend 63
  let big := (v >>> 24).signExtend 63
  writeByte i base
  writeByte (i + 1) (base >>> 8)
  writeByte (i + 2) (base >>> 16)
  writeByte (i + 3) big

def writeI64 (i : Int) (v : BitVec 64) : EStateM String Bytes Unit := do
  writeI32 i (v.setWidth 32)
  writeI32 (i + 4) ((v >>> 32).setWidth 32)

/-! ## Bytes in a row -/

/-- The buffer with bytes put over those from `n` on. -/
@[grind =] def overwrite (this : Bytes) : Nat → Bytes → Bytes
  | _, [] => this
  | n, byte :: rest => overwrite (this.set n byte) (n + 1) rest

@[simp] theorem overwrite_length (this : Bytes) (n : Nat) (bytes : Bytes) :
    (overwrite this n bytes).length = this.length := by
  induction bytes generalizing this n with
  | nil => rfl
  | cons byte rest ih => simp [overwrite, ih]

/-- Bytes other than those written stay. -/
theorem overwrite_outside (this : Bytes) {n k : Nat} (bytes : Bytes)
    (outside : k < n ∨ n + bytes.length ≤ k) : (overwrite this n bytes)[k]? = this[k]? := by
  induction bytes generalizing this n with
  | nil => rfl
  | cons byte rest ih =>
    rw [List.length_cons] at outside
    rw [overwrite, ih _ (by omega), List.getElem?_set_ne (by omega)]

theorem overwrite_inside (this : Bytes) {n j : Nat} (bytes : Bytes)
    (fits : n + bytes.length ≤ this.length) (inside : j < bytes.length) :
    (overwrite this n bytes)[n + j]? = bytes[j]? := by
  induction bytes generalizing this n j with
  | nil => cases inside
  | cons byte rest ih =>
    rw [List.length_cons] at fits inside
    cases j with
    | zero =>
      rw [overwrite, overwrite_outside _ _ (by omega), Nat.add_zero,
        List.getElem?_set_self (by omega)]
      rfl
    | succ j =>
      have later := ih (this.set n byte) (n := n + 1) (j := j) (by simp; omega) (by omega)
      rw [overwrite, List.getElem?_cons_succ, ← later]
      congr 1
      omega

/-- The bytes of a word of 32 bits, the low one first. -/
def bytesI32 (v : BitVec 32) : Bytes :=
  [v.setWidth 8, (v >>> 8).setWidth 8, (v >>> 16).setWidth 8, (v >>> 24).setWidth 8]

theorem bytesI32_get (v : BitVec 32) {j : Nat} (inside : j < 4) :
    (bytesI32 v)[j]? = some ((v >>> (8 * j)).setWidth 8) := by
  match j with
  | 0 => simp [bytesI32]
  | 1 => rfl
  | 2 => rfl
  | 3 => rfl

/-! ## Reading -/

theorem readByte_some {this : Bytes} {i : Int} {n : Nat} {byte : BitVec 8} (place : i = n)
    (there : this[n]? = some byte) : readByte this i = .ok (byte.setWidth 63) := by
  unfold readByte
  rw [place, if_neg (by omega), Int.toNat_natCast, there]

/-- Four bytes spell a word of 32 bits. -/
theorem spelledI32 (v : BitVec 32) :
    ((v.setWidth 8).setWidth 63 ||| ((v >>> 8).setWidth 8).setWidth 63 <<< 8 |||
      ((v >>> 16).setWidth 8).setWidth 63 <<< 16 : BitVec 63).setWidth 32 |||
      (((v >>> 24).setWidth 8).setWidth 63 : BitVec 63).setWidth 32 <<< 24 = v := by
  apply BitVec.eq_of_getLsbD_eq
  intro i inside
  simp only [BitVec.getLsbD_or, BitVec.getLsbD_setWidth, BitVec.getLsbD_shiftLeft,
    BitVec.getLsbD_ushiftRight]
  grind

/-- Four bytes below a high word spell a word of 64 bits. -/
theorem spelledI64 (high low : BitVec 32) :
    high.signExtend 64 <<< 32 |||
      (((low.setWidth 8).setWidth 63 ||| ((low >>> 8).setWidth 8).setWidth 63 <<< 8 |||
        ((low >>> 16).setWidth 8).setWidth 63 <<< 16 : BitVec 63).signExtend 64 |||
        (((low >>> 24).setWidth 8).setWidth 63 : BitVec 63).signExtend 64 <<< 24) =
      high ++ low := by
  apply BitVec.eq_of_getLsbD_eq
  intro i inside
  simp only [BitVec.getLsbD_or, BitVec.getLsbD_setWidth, BitVec.getLsbD_shiftLeft,
    BitVec.getLsbD_ushiftRight, BitVec.getLsbD_signExtend, BitVec.getLsbD_append,
    BitVec.msb_or, BitVec.msb_setWidth, BitVec.msb_shiftLeft]
  grind

theorem readI32_spelled {this : Bytes} {i : Int} {n : Nat} {v : BitVec 32} (place : i = n)
    (there : ∀ j, j < 4 → this[n + j]? = some ((v >>> (8 * j)).setWidth 8)) :
    readI32 this i = .ok v := by
  have first := readByte_some (i := i) (by omega) (there 0 (by omega))
  have second := readByte_some (i := i + 1) (by omega) (there 1 (by omega))
  have third := readByte_some (i := i + 2) (by omega) (there 2 (by omega))
  have fourth := readByte_some (i := i + 3) (by omega) (there 3 (by omega))
  simp only [readI32, first, second, third, fourth, bind, Except.bind, pure, Except.pure]
  exact congrArg Except.ok (spelledI32 v)

theorem readI64_spelled {this : Bytes} {i : Int} {n : Nat} {high low : BitVec 32}
    (place : i = n)
    (lower : ∀ j, j < 4 → this[n + j]? = some ((low >>> (8 * j)).setWidth 8))
    (upper : ∀ j, j < 4 → this[n + 4 + j]? = some ((high >>> (8 * j)).setWidth 8)) :
    readI64 this i = .ok (high ++ low) := by
  have first := readByte_some (i := i) (by omega) (lower 0 (by omega))
  have second := readByte_some (i := i + 1) (by omega) (lower 1 (by omega))
  have third := readByte_some (i := i + 2) (by omega) (lower 2 (by omega))
  have fourth := readByte_some (i := i + 3) (by omega) (lower 3 (by omega))
  have above := readI32_spelled (i := i + 4) (by omega) upper
  simp only [readI64, first, second, third, fourth, above, bind, Except.bind, pure, Except.pure]
  exact congrArg Except.ok (spelledI64 high low)

/-! ## Writing -/

theorem writeByte_eq (this : Bytes) (i : Int) (v : BitVec 63) :
    writeByte i v this =
      (if 0 ≤ i ∧ i < this.length then set (this.set i.toNat (v.setWidth 8))
        else throw indexOutOfBounds : EStateM String Bytes Unit) this := rfl

theorem writeByte_inside {this : Bytes} {i : Int} {n : Nat} (place : i = n)
    (fits : n < this.length) (v : BitVec 63) :
    writeByte i v this = .ok () (this.set n (v.setWidth 8)) := by
  have guard : 0 ≤ i ∧ i < this.length := by omega
  have same : i.toNat = n := by omega
  rw [writeByte_eq, if_pos guard, same]
  rfl

theorem writeByte_outside {this : Bytes} {i : Int} (outside : i < 0 ∨ this.length ≤ i)
    (v : BitVec 63) : writeByte i v this = .error indexOutOfBounds this := by
  have guard : ¬ (0 ≤ i ∧ i < this.length) := by omega
  rw [writeByte_eq, if_neg guard]
  rfl

/-- The sign that an `int` extends does not reach the byte that is stored. -/
theorem storedByte (v : BitVec 32) {k : Nat} (low : k ≤ 24) :
    (v.signExtend 63 >>> k).setWidth 8 = (v >>> k).setWidth 8 := by
  apply BitVec.eq_of_getLsbD_eq
  intro i inside
  simp only [BitVec.getLsbD_setWidth, BitVec.getLsbD_ushiftRight, BitVec.getLsbD_signExtend]
  grind

theorem storedHigh (v : BitVec 32) :
    ((v >>> 24).signExtend 63).setWidth 8 = (v >>> 24).setWidth 8 :=
  storedByte (v >>> 24) (Nat.zero_le 24)

/-- Values written one after another. -/
@[grind =] def writeRow : Int → List (BitVec 63) → EStateM String Bytes Unit
  | _, [] => return
  | i, v :: rest => do
    writeByte i v
    writeRow (i + 1) rest

theorem writeRow_inside {this : Bytes} {i : Int} {n : Nat} (place : i = n)
    {row : List (BitVec 63)} (fits : n + row.length ≤ this.length) :
    writeRow i row this = .ok () (overwrite this n (row.map fun v => v.setWidth 8)) := by
  induction row generalizing this i n with
  | nil => rfl
  | cons v rest ih =>
    rw [List.length_cons] at fits
    have first : writeByte i v this = .ok () (this.set n (v.setWidth 8)) :=
      writeByte_inside place (by omega) v
    have next : i + 1 = (n + 1 : Nat) := by omega
    simp only [writeRow, bind, EStateM.bind, first]
    exact ih next (by rw [List.length_set]; omega)

theorem writeRow_outside {this : Bytes} {i : Int} {row : List (BitVec 63)}
    (outside : i < 0 ∨ this.length < i + row.length) (some : row ≠ []) :
    ∃ left, writeRow i row this = .error indexOutOfBounds left := by
  induction row generalizing this i with
  | nil => exact absurd rfl some
  | cons v rest ih =>
    simp only [writeRow, bind, EStateM.bind]
    by_cases first : i < 0 ∨ this.length ≤ i
    · rw [writeByte_outside first]
      exact ⟨this, rfl⟩
    · rw [List.length_cons] at outside
      rw [writeByte_inside (n := i.toNat) (by omega) (by omega)]
      refine ih (by rw [List.length_set]; omega) fun none => ?_
      rw [none, List.length_nil] at outside
      omega

/-- The values that `writeI32` passes on. -/
def rowI32 (v : BitVec 32) : List (BitVec 63) :=
  [v.signExtend 63, v.signExtend 63 >>> 8, v.signExtend 63 >>> 16, (v >>> 24).signExtend 63]

theorem writeRow_append (i : Int) (first last : List (BitVec 63)) :
    writeRow i (first ++ last) =
      (do writeRow i first; writeRow (i + first.length) last : EStateM String Bytes Unit) := by
  induction first generalizing i with
  | nil => rw [List.length_nil, Int.natCast_zero, Int.add_zero]; rfl
  | cons v rest ih =>
    have place : i + (v :: rest).length = i + 1 + rest.length := by
      rw [List.length_cons]
      omega
    rw [place, List.cons_append]
    funext this
    simp only [writeRow, ih, bind, EStateM.bind]
    cases writeByte i v this <;> rfl

theorem writeI32_row (i : Int) (v : BitVec 32) : writeI32 i v = writeRow i (rowI32 v) := by
  simp only [writeI32, rowI32, writeRow, bind_pure_unit, Int.add_assoc, Int.reduceAdd]

theorem rowI32_bytes (v : BitVec 32) :
    ((rowI32 v).map fun one => one.setWidth 8) = bytesI32 v := by
  have low := storedByte v (Nat.zero_le 24)
  rw [BitVec.ushiftRight_zero, BitVec.ushiftRight_zero] at low
  simp only [rowI32, bytesI32, List.map_cons, List.map_nil, low, storedHigh,
    storedByte v (show 8 ≤ 24 by decide), storedByte v (show 16 ≤ 24 by decide)]

/-- The values that `writeI64` passes on. -/
def rowI64 (v : BitVec 64) : List (BitVec 63) :=
  rowI32 (v.setWidth 32) ++ rowI32 ((v >>> 32).setWidth 32)

theorem writeI64_row (i : Int) (v : BitVec 64) : writeI64 i v = writeRow i (rowI64 v) := by
  rw [rowI64, writeRow_append, ← writeI32_row, writeI64, writeI32_row (i + 4)]
  rfl

end Haxe.Source.EvalBytes
