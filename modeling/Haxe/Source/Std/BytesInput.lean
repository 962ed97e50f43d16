import Haxe.Source.Std.Streams

/-!
# Reading a part of some bytes

`haxe.io.BytesInput` without the targets flash, neko and php. Sums of `Int` are exact, as on js.
The position is one of the whole bytes, but `set_position` takes it for one of the part.
-/

namespace Haxe.Source.Io

/-- A position never leaves the bytes, though it may leave the part. -/
structure BytesInput where
  b : List Byte
  pos : Nat
  len : Nat
  totlen : Nat
  within : pos + len ≤ b.length
  total : totlen ≤ b.length

namespace BytesInput

/-- `new BytesInput(b, pos, len)` -/
def new (b : List Byte) (pos len : Option Int) : Except Thrown BytesInput :=
  let first := pos.getD 0
  let count := len.getD (b.length - first)
  if outside : first < 0 ∨ count < 0 ∨ first + count > b.length then
    .error (.error .OutsideBounds)
  else
    .ok ⟨b, first.toNat, count.toNat, count.toNat, by omega, by omega⟩

/-- `set_position`, which returns the position that is set. -/
def set_position (this : BytesInput) (p : Int) : BytesInput :=
  let p := min p.toNat this.totlen
  { this with
    pos := p
    len := this.totlen - p
    within := by
      have := this.total
      omega }

/-- Bytes that are taken from the position on. -/
def taken (this : BytesInput) (n : Nat) : List Byte := (this.b.drop this.pos).take n

/-- The input behind bytes that are taken. -/
def behind (this : BytesInput) (n : Nat) (fits : n ≤ this.len) : BytesInput :=
  { this with
    pos := this.pos + n
    len := this.len - n
    within := by
      have := this.within
      omega }

/-- `readByte` -/
def readByte (this : BytesInput) : Except Thrown (Byte × BytesInput) :=
  if some_ : 0 < this.len then
    .ok (this.b.get ⟨this.pos, Nat.lt_of_lt_of_le (Nat.lt_add_of_pos_right some_) this.within⟩,
      this.behind 1 some_)
  else .error .eof

/-- `readBytes`: the number of bytes, with the buffer and the input behind it. The method of java
and cs, `direct`, throws when no byte is asked for. -/
def readBytes (direct : Bool) (this : BytesInput) (buf : List Byte) (pos len : Int) :
    Except Thrown (Nat × List Byte × BytesInput) :=
  if pos < 0 ∨ len < 0 ∨ pos + len > buf.length then .error (.error .OutsideBounds)
  else
    let n := min len.toNat this.len
    if if direct then n = 0 else this.len = 0 ∧ 0 < len then .error .eof
    else
      .ok (n, overwrite buf pos.toNat (this.taken n), this.behind n (Nat.min_le_right _ _))

/-- What is done with an input. -/
inductive Operation where
  | readByte
  | readBytes (buf : List Byte) (pos len : Int)
  | setPosition (p : Int)

/-- What an operation returns: bytes that are delivered, or the position. -/
inductive Returned where
  | byte (c : Byte)
  | bytes (n : Nat) (buf : List Byte)
  | position (p : Nat)

/-- An operation that throws leaves the input as it is. -/
@[grind =]
def step (direct : Bool) (this : BytesInput) : Operation → Except Thrown Returned × BytesInput
  | .readByte =>
    match this.readByte with
    | .ok r => (.ok (.byte r.1), r.2)
    | .error e => (.error e, this)
  | .readBytes buf pos len =>
    match this.readBytes direct buf pos len with
    | .ok r => (.ok (.bytes r.1 r.2.1), r.2.2)
    | .error e => (.error e, this)
  | .setPosition p => (.ok (.position (this.set_position p).pos), this.set_position p)

/-- A property of each operation of a run and the input before it. -/
def Always (direct : Bool) (holds : BytesInput → Operation → Prop) :
    BytesInput → List Operation → Prop
  | _, [] => True
  | this, o :: rest => holds this o ∧ Always direct holds (this.step direct o).2 rest

/-- `b[offset, offset + length)` -/
structure Part where
  b : List Byte
  offset : Nat
  length : Nat

namespace Part

variable (part : Part) (direct : Bool) (this : BytesInput)

/-- The position stands in the part, and what is left reaches to its end. -/
structure Stands : Prop where
  b : this.b = part.b
  start : part.offset ≤ this.pos
  sum : this.pos + this.len = part.offset + part.length
  totlen : this.totlen = part.length

/-- The part has no byte left. -/
def Exhausted : Prop := part.offset + part.length ≤ this.pos

/-- Bytes of the part from the position on. -/
def Delivers (bytes : List Byte) : Prop :=
  part.offset ≤ this.pos ∧ this.pos + bytes.length ≤ part.offset + part.length ∧
    bytes = (part.b.drop this.pos).take bytes.length

/-- A byte is asked for, and there is room for it. -/
def Asks : Operation → Prop
  | .readByte => True
  | .readBytes buf pos len => 0 ≤ pos ∧ 0 < len ∧ pos + len ≤ buf.length
  | .setPosition _ => False

/-- What is delivered by an operation. -/
def Delivered (o : Operation) : Prop :=
  match o, (this.step direct o).1 with
  | .readByte, .ok (.byte c) => part.Delivers this [c]
  | .readBytes buf pos len, .ok (.bytes n buf') =>
    ∃ bytes, part.Delivers this bytes ∧ bytes.length = n ∧ (n : Int) ≤ len ∧
      buf' = overwrite buf pos.toNat bytes
  | .setPosition _, .ok (.position _) => True
  | _, .error _ => True
  | _, _ => False

/-- An operation does not leave the part. -/
structure Keeps (o : Operation) : Prop where
  delivered : part.Delivered direct this o
  stands : part.Stands (this.step direct o).2
  bounded : (this.step direct o).2.len ≤ part.length
  same : o = .setPosition this.pos → (this.step direct o).2 = this
  eof : (this.step direct o).1 = .error .eof → part.Exhausted this
  exhausted : part.Exhausted this → Asks o → (this.step direct o).1 = .error .eof

/-- The position is not assigned in a part that begins behind the first byte, and with the method of
java and cs no byte at all is read only behind the last one. -/
def Fits : Operation → Prop
  | .readByte => True
  | .readBytes buf pos len =>
    direct = true → 0 ≤ pos → len = 0 → pos ≤ buf.length → part.Exhausted this
  | .setPosition _ => part.offset = 0

section Steps

variable {part : Part} {direct : Bool} {this : BytesInput}

theorem Stands.len_le (stands : part.Stands this) : this.len ≤ part.length := by
  have start := stands.start
  have sum := stands.sum
  omega

theorem Stands.exhausted_iff (stands : part.Stands this) : part.Exhausted this ↔ this.len = 0 := by
  have sum := stands.sum
  unfold Exhausted
  omega

theorem Stands.behind (stands : part.Stands this) {n : Nat} (fits : n ≤ this.len) :
    part.Stands (this.behind n fits) where
  b := stands.b
  start := Nat.le_trans stands.start (Nat.le_add_right _ _)
  sum := by
    have sum := stands.sum
    change this.pos + n + (this.len - n) = _
    omega
  totlen := stands.totlen

theorem Stands.delivers (stands : part.Stands this) {n : Nat} (fits : n ≤ this.len) :
    part.Delivers this (this.taken n) ∧ (this.taken n).length = n := by
  have within := this.within
  have length : (this.taken n).length = n := by
    unfold taken
    rw [List.length_take, List.length_drop]
    omega
  refine ⟨⟨stands.start, ?_, ?_⟩, length⟩
  · rw [length, ← stands.sum]
    exact Nat.add_le_add_left fits _
  · rw [length, ← stands.b]
    rfl

/-- An operation that throws. -/
theorem Stands.throws (stands : part.Stands this) {o : Operation} {e : Thrown}
    (run : this.step direct o = (.error e, this)) (eof : e = .eof → part.Exhausted this)
    (exhausted : part.Exhausted this → Asks o → e = .eof) : part.Keeps direct this o := by
  refine ⟨?_, ?_, ?_, ?_, ?_, ?_⟩
  · unfold Delivered
    rw [run]
    cases o <;> trivial
  · rw [run]
    exact stands
  · rw [run]
    exact stands.len_le
  · rw [run]
    exact fun _ => rfl
  · rw [run]
    exact fun thrown => eof (Except.error.inj thrown)
  · rw [run]
    exact fun none_ asks => congrArg Except.error (exhausted none_ asks)

/-- An operation that takes bytes. -/
theorem Stands.takes (stands : part.Stands this) {o : Operation} {r : Returned} {n : Nat}
    {fits : n ≤ this.len} (run : this.step direct o = (.ok r, this.behind n fits))
    (delivered : part.Delivered direct this o) (reads : ∀ p, o ≠ .setPosition p)
    (some_ : Asks o → 0 < n) : part.Keeps direct this o := by
  have moved := stands.behind fits
  refine ⟨delivered, ?_, ?_, fun same => absurd same (reads _), ?_, ?_⟩
  · rw [run]
    exact moved
  · rw [run]
    exact moved.len_le
  · rw [run]
    exact nofun
  · intro exhausted asks
    have none_ := stands.exhausted_iff.mp exhausted
    have positive := some_ asks
    omega

theorem Stands.readByte_keeps (stands : part.Stands this) :
    part.Keeps direct this .readByte := by
  by_cases left : 0 < this.len
  · have inside : this.pos < this.b.length :=
      Nat.lt_of_lt_of_le (Nat.lt_add_of_pos_right left) this.within
    have run : this.step direct .readByte =
        (.ok (.byte (this.b.get ⟨this.pos, inside⟩)), this.behind 1 left) := by
      unfold step readByte
      rw [dif_pos left]
    have one : this.taken 1 = [this.b.get ⟨this.pos, inside⟩] := by
      unfold taken
      rw [List.drop_eq_getElem_cons inside]
      rfl
    refine stands.takes run ?_ nofun fun _ => Nat.zero_lt_one
    unfold Delivered
    rw [run]
    dsimp only
    rw [← one]
    exact (stands.delivers left).1
  · have run : this.step direct .readByte = (.error .eof, this) := by
      unfold step readByte
      rw [dif_neg left]
    exact stands.throws run (fun _ => stands.exhausted_iff.mpr (by omega)) fun _ _ => rfl

theorem Stands.readBytes_keeps_iff (stands : part.Stands this) (buf : List Byte) (pos len : Int) :
    part.Keeps direct this (.readBytes buf pos len) ↔
      part.Fits direct this (.readBytes buf pos len) := by
  by_cases outside : pos < 0 ∨ len < 0 ∨ pos + len > buf.length
  · have read : this.readBytes direct buf pos len = .error (.error .OutsideBounds) :=
      if_pos outside
    have run : this.step direct (.readBytes buf pos len) =
        (.error (.error .OutsideBounds), this) := by
      unfold step
      dsimp only
      rw [read]
    refine iff_of_true (stands.throws run nofun fun _ asks => ?_) fun _ start none_ room => ?_
    · have inside : 0 ≤ pos ∧ 0 < len ∧ pos + len ≤ buf.length := asks
      omega
    · omega
  · let n := min len.toNat this.len
    have le : (n : Int) ≤ len := by omega
    by_cases stop : if direct then n = 0 else this.len = 0 ∧ 0 < len
    · have read : this.readBytes direct buf pos len = .error .eof :=
        (if_neg outside).trans (if_pos stop)
      have run : this.step direct (.readBytes buf pos len) = (.error .eof, this) := by
        unfold step
        dsimp only
        rw [read]
      constructor
      · intro keeps directly start none_ room
        exact keeps.eof (congrArg Prod.fst run)
      · intro fits
        refine stands.throws run (fun _ => ?_) fun _ _ => rfl
        cases direct with
        | false => exact stands.exhausted_iff.mpr stop.1
        | true =>
          by_cases none_ : len = 0
          · exact fits rfl (by omega) none_ (by omega)
          · have nothing : n = 0 := stop
            exact stands.exhausted_iff.mpr (by omega)
    · have read : this.readBytes direct buf pos len =
          .ok (n, overwrite buf pos.toNat (this.taken n), this.behind n (Nat.min_le_right _ _)) :=
        (if_neg outside).trans (if_neg stop)
      have run : this.step direct (.readBytes buf pos len) =
          (.ok (.bytes n (overwrite buf pos.toNat (this.taken n))),
            this.behind n (Nat.min_le_right _ _)) := by
        unfold step
        dsimp only
        rw [read]
      have delivers := stands.delivers (n := n) (Nat.min_le_right _ _)
      refine iff_of_true (stands.takes run ?_ nofun fun asks => ?_) fun directly _ none_ _ => ?_
      · unfold Delivered
        rw [run]
        exact ⟨this.taken n, delivers.1, delivers.2, le, rfl⟩
      · have inside : 0 ≤ pos ∧ 0 < len ∧ pos + len ≤ buf.length := asks
        cases direct with
        | false =>
          have left : ¬ (this.len = 0 ∧ 0 < len) := stop
          omega
        | true => exact Nat.pos_of_ne_zero stop
      · subst directly
        have some_ : n ≠ 0 := stop
        omega

theorem Stands.setPosition_keeps_iff (stands : part.Stands this) (p : Int) :
    part.Keeps direct this (.setPosition p) ↔ part.offset = 0 := by
  have start := stands.start
  have sum := stands.sum
  have totlen := stands.totlen
  constructor
  · intro keeps
    have after : min p.toNat this.totlen + (this.totlen - min p.toNat this.totlen) = _ :=
      keeps.stands.sum
    omega
  · intro first
    refine ⟨trivial, ⟨stands.b, ?_, ?_, totlen⟩, ?_, ?_, nofun, fun _ asks => absurd asks id⟩
    · rw [first]
      exact Nat.zero_le _
    · change min p.toNat this.totlen + (this.totlen - min p.toNat this.totlen) = _
      omega
    · change this.totlen - min p.toNat this.totlen ≤ _
      omega
    · intro same
      obtain rfl := Operation.setPosition.inj same
      have pos : min (this.pos : Int).toNat this.totlen = this.pos := by omega
      have len : this.totlen - this.pos = this.len := by omega
      change this.set_position this.pos = this
      unfold set_position
      dsimp only
      simp only [pos, len]

/-- What one operation keeps, and exactly when. -/
theorem Stands.keeps_iff (stands : part.Stands this) (o : Operation) :
    part.Keeps direct this o ↔ part.Fits direct this o := by
  cases o with
  | readByte => exact iff_of_true stands.readByte_keeps trivial
  | readBytes buf pos len => exact stands.readBytes_keeps_iff buf pos len
  | setPosition p => exact stands.setPosition_keeps_iff p

theorem Stands.always_iff (stands : part.Stands this) (run : List Operation) :
    Always direct (part.Keeps direct) this run ↔ Always direct (part.Fits direct) this run := by
  induction run generalizing this with
  | nil => exact Iff.rfl
  | cons o rest ih =>
    constructor
    · rintro ⟨keeps, more⟩
      exact ⟨(stands.keeps_iff o).mp keeps, (ih keeps.stands).mp more⟩
    · rintro ⟨fits, more⟩
      have keeps : part.Keeps direct this o := (stands.keeps_iff o).mpr fits
      exact ⟨keeps, (ih keeps.stands).mpr more⟩

/-- A new input stands in its part. -/
theorem stands_new {b : List Byte} {pos len : Option Int} {this : BytesInput}
    (made : new b pos len = .ok this) : Stands ⟨b, this.pos, this.len⟩ this := by
  unfold new at made
  dsimp only at made
  split at made
  · cases made
  · obtain rfl := Except.ok.inj made
    exact ⟨rfl, Nat.le_refl _, rfl, rfl⟩

/-- But on java and cs, what is read does not matter. -/
theorem always_fits_iff (run : List Operation) :
    Always false (part.Fits false) this run ↔
      part.offset = 0 ∨ ∀ p, Operation.setPosition p ∉ run := by
  induction run generalizing this with
  | nil => exact iff_of_true trivial (.inr fun p => List.not_mem_nil)
  | cons o rest ih =>
    have cons : Always false (part.Fits false) this (o :: rest) ↔
        part.Fits false this o ∧ (part.offset = 0 ∨ ∀ p, Operation.setPosition p ∉ rest) :=
      and_congr_right fun _ => ih
    have fits : part.Fits false this o ↔ part.offset = 0 ∨ ∀ p, o ≠ .setPosition p := by
      cases o with
      | readByte => exact iff_of_true trivial (.inr nofun)
      | readBytes buf pos len => exact iff_of_true nofun (.inr nofun)
      | setPosition p =>
        refine ⟨.inl, fun either => either.resolve_right fun other => other p rfl⟩
    rw [cons, fits, ← or_and_left]
    refine or_congr Iff.rfl ⟨fun neither p => ?_, fun none_ => ⟨fun p => ?_, fun p => ?_⟩⟩
    · exact List.not_mem_cons_of_ne_of_not_mem (Ne.symm (neither.1 p)) (neither.2 p)
    · exact Ne.symm (List.ne_of_not_mem_cons (none_ p))
    · exact List.not_mem_of_not_mem_cons (none_ p)

end Steps

end Part

end BytesInput

end Haxe.Source.Io
