import Mathlib.Data.List.Basic
import Haxe.Theory.Fuel

/-!
# Streams of bytes

`haxe.io.Input` and `haxe.io.Output`: the loops over `readBytes` and `writeBytes`, for any source
that overrides one of `readByte` and `readBytes` and for any sink that overrides `writeBytes`. A
buffer is the list of its bytes.
-/

namespace Haxe.Source.Io

open Haxe.Theory.FueledLoops

abbrev Byte := UInt8

/-- `haxe.io.Error` -/
inductive Error where
  | Blocked
  | OutsideBounds
  deriving DecidableEq, Repr

inductive Thrown where
  | eof
  | error (e : Error)
  deriving DecidableEq, Repr

/-- `s` with some bytes from a position on. -/
def overwrite (s : List Byte) (pos : Nat) (data : List Byte) : List Byte :=
  s.take pos ++ data ++ s.drop (pos + data.length)

/-- A source, with what it has still to deliver. -/
inductive Input where
  /-- overrides `readByte`, which throws `Eof` at the end -/
  | ofReadByte (remaining : List Byte)
  /-- overrides `readBytes`, which delivers one byte more than it wishes to at each call -/
  | ofReadBytes (remaining : List Byte) (wishes : Nat → Nat) (calls : Nat)

namespace Input

def remaining : Input → List Byte
  | ofReadByte remaining => remaining
  | ofReadBytes remaining _ _ => remaining

/-- The loop of the default `readBytes`, which ends at `Eof` too. -/
def readByteLoop : Nat → List Byte → List Byte → Nat → List Byte × List Byte × Nat
  | 0, remaining, s, _ => (remaining, s, 0)
  | k + 1, [], s, _ => ([], s, k + 1)
  | k + 1, b :: remaining, s, pos => readByteLoop k remaining (s.set pos b) (pos + 1)

/-- `readBytes`: the number of bytes, with the source and the buffer behind it. -/
def readBytes (i : Input) (s : List Byte) (pos len : Nat) :
    Except Thrown (Nat × Input × List Byte) :=
  if pos + len > s.length then .error (.error .OutsideBounds)
  else match i with
  | ofReadByte remaining =>
    let r := readByteLoop len remaining s pos
    .ok (len - r.2.2, ofReadByte r.1, r.2.1)
  | ofReadBytes [] _ _ => .error .eof
  | ofReadBytes remaining wishes calls =>
    let k := min (wishes calls + 1) (min len remaining.length)
    .ok (k, ofReadBytes (remaining.drop k) wishes (calls + 1), overwrite s pos (remaining.take k))

/-- The variables of the loops of `readFullBytes` and `read`. -/
structure Reading where
  input : Input
  s : List Byte
  pos : Nat
  len : Nat

def readStep (this : Reading) : Next Reading (Except Thrown (Input × List Byte)) :=
  if this.len > 0 then
    match this.input.readBytes this.s this.pos this.len with
    | .error e => .done (.error e)
    | .ok (k, input, s) =>
      if k = 0 then .done (.error (.error .Blocked))
      else .again ⟨input, s, this.pos + k, this.len - k⟩
  else .done (.ok (this.input, this.s))

/-- `readFullBytes`: the source and the buffer behind it. -/
def readFullBytes (fuel : Nat) (i : Input) (s : List Byte) (pos len : Nat) :
    Option (Except Thrown (Input × List Byte)) :=
  loop readStep fuel ⟨i, s, pos, len⟩

/-- `read`: the source and the bytes. -/
def read (fuel : Nat) (i : Input) (nbytes : Nat) : Option (Except Thrown (Input × List Byte)) :=
  loop readStep fuel ⟨i, List.replicate nbytes 0, 0, nbytes⟩

/-- The variables of `readAll`. -/
structure ReadingAll where
  input : Input
  buf : List Byte
  total : List Byte

def readAllStep (bufsize : Nat) (this : ReadingAll) :
    Next ReadingAll (Except Thrown (Input × List Byte)) :=
  match this.input.readBytes this.buf 0 bufsize with
  | .error .eof => .done (.ok (this.input, this.total))
  | .error e => .done (.error e)
  | .ok (len, input, buf) =>
    if len = 0 then .done (.error (.error .Blocked))
    else .again ⟨input, buf, this.total ++ buf.take len⟩

/-- `readAll`: the source and the bytes. -/
def readAll (fuel : Nat) (i : Input) (bufsize : Nat) : Option (Except Thrown (Input × List Byte)) :=
  loop (readAllStep bufsize) fuel ⟨i, List.replicate bufsize 0, []⟩

end Input

/-- A sink, with what it has accepted and how much it accepts at each call. -/
structure Output where
  written : List Byte
  accepts : Nat → Nat
  calls : Nat

namespace Output

/-- `writeBytes`: the number of bytes, with the sink behind it. -/
def writeBytes (o : Output) (s : List Byte) (pos len : Nat) : Except Thrown (Nat × Output) :=
  if pos + len > s.length then .error (.error .OutsideBounds)
  else
    let k := min (o.accepts o.calls) len
    .ok (k, { o with written := o.written ++ (s.drop pos).take k, calls := o.calls + 1 })

/-- The variables of the loops of `write` and `writeFullBytes`. -/
structure Writing where
  output : Output
  pos : Nat
  len : Nat

/-- The step of `write`, which checks that something is written, and the one of `writeFullBytes`,
which does not. -/
def writeStep (checked : Bool) (s : List Byte) (this : Writing) :
    Next Writing (Output × Except Thrown Unit) :=
  if this.len > 0 then
    match this.output.writeBytes s this.pos this.len with
    | .error e => .done (this.output, .error e)
    | .ok (k, output) =>
      if checked && k = 0 then .done (output, .error (.error .Blocked))
      else .again ⟨output, this.pos + k, this.len - k⟩
  else .done (this.output, .ok ())

def write (fuel : Nat) (o : Output) (s : List Byte) : Option (Output × Except Thrown Unit) :=
  loop (writeStep true s) fuel ⟨o, 0, s.length⟩

def writeFullBytes (fuel : Nat) (o : Output) (s : List Byte) (pos len : Nat) :
    Option (Output × Except Thrown Unit) :=
  loop (writeStep false s) fuel ⟨o, pos, len⟩

/-- The variables of `writeInput`. -/
structure Copying where
  input : Input
  output : Output
  buf : List Byte
  p : Nat
  len : Nat

/-- One step of the two loops of `writeInput`, of the inner one as long as there is a length. -/
def writeInputStep (bufsize : Nat) (this : Copying) :
    Next Copying (Output × Except Thrown Unit) :=
  if this.len > 0 then
    match this.output.writeBytes this.buf this.p this.len with
    | .error .eof => .done (this.output, .ok ())
    | .error e => .done (this.output, .error e)
    | .ok (k, output) =>
      if k = 0 then .done (output, .error (.error .Blocked))
      else .again { this with output, p := this.p + k, len := this.len - k }
  else
    match this.input.readBytes this.buf 0 bufsize with
    | .error .eof => .done (this.output, .ok ())
    | .error e => .done (this.output, .error e)
    | .ok (len, input, buf) =>
      if len = 0 then .done (this.output, .error (.error .Blocked))
      else .again { this with input, buf, p := 0, len }

def writeInput (fuel : Nat) (o : Output) (i : Input) (bufsize : Nat) :
    Option (Output × Except Thrown Unit) :=
  loop (writeInputStep bufsize) fuel ⟨i, o, List.replicate bufsize 0, 0, 0⟩

end Output

end Haxe.Source.Io

/-!
## What the reading loops deliver

One call of `readBytes` for both kinds of sources, and the loops over it.
-/

namespace Haxe.Source.Io

open Haxe.Theory.FueledLoops

theorem length_overwrite {s data : List Byte} {pos : Nat} (inside : pos + data.length ≤ s.length) :
    (overwrite s pos data).length = s.length := by
  simp only [overwrite, List.length_append, List.length_take, List.length_drop]
  omega

theorem overwrite_nil (s : List Byte) (pos : Nat) : overwrite s pos [] = s := by
  simp [overwrite]

theorem overwrite_cons {s : List Byte} {pos : Nat} (b : Byte) (data : List Byte)
    (inside : pos < s.length) :
    overwrite (s.set pos b) (pos + 1) data = overwrite s pos (b :: data) := by
  have first : (s.set pos b).take (pos + 1) = s.take pos ++ [b] := by
    rw [List.take_succ_eq_append_getElem (by rwa [List.length_set]), List.getElem_set_self,
      List.take_set_of_le (Nat.le_refl pos)]
  have behind :
      (s.set pos b).drop (pos + 1 + data.length) = s.drop (pos + (data.length + 1)) := by
    rw [List.drop_set_of_lt (by omega)]
    congr 1
    omega
  rw [overwrite, overwrite, first, behind, List.length_cons]
  simp

theorem overwrite_append {s data data' : List Byte} {pos : Nat}
    (inside : pos + data.length ≤ s.length) :
    overwrite (overwrite s pos data) (pos + data.length) data' = overwrite s pos (data ++ data') := by
  induction data generalizing s pos with
  | nil => simp [overwrite_nil]
  | cons b data ih =>
    rw [List.length_cons] at inside ⊢
    have inside' : pos < s.length := by omega
    rw [← overwrite_cons b data inside', List.cons_append,
      ← overwrite_cons b (data ++ data') inside', ← ih (by rw [List.length_set]; omega)]
    congr 1
    omega

theorem take_overwrite (s data : List Byte) :
    (overwrite s 0 data).take data.length = data := by
  simp [overwrite]

namespace Input

/-- The source overrides `readByte` only. -/
@[grind =] def byByte : Input → Bool
  | ofReadByte _ => true
  | ofReadBytes _ _ _ => false

theorem readByteLoop_eq {len : Nat} {remaining s : List Byte} {pos : Nat}
    (inside : pos + len ≤ s.length) :
    readByteLoop len remaining s pos =
      (remaining.drop len, overwrite s pos (remaining.take len), len - remaining.length) := by
  induction len generalizing remaining s pos with
  | zero => simp [readByteLoop, overwrite_nil]
  | succ len ih =>
    cases remaining with
    | nil => simp [readByteLoop, overwrite_nil]
    | cons b remaining =>
      rw [readByteLoop, ih (by rw [List.length_set]; omega), overwrite_cons b _ (by omega)]
      simp

/-- A call delivers the next bytes, or none at the end. A source by bytes does not throw there. -/
theorem readBytes_inside (i : Input) {s : List Byte} {pos len : Nat}
    (inside : pos + len ≤ s.length) (some_ : 0 < len) :
    (i.remaining = [] ∧ i.byByte = false ∧ i.readBytes s pos len = .error .eof) ∨
      ∃ k i', i.readBytes s pos len = .ok (k, i', overwrite s pos (i.remaining.take k)) ∧
        k ≤ len ∧ k ≤ i.remaining.length ∧ i'.remaining = i.remaining.drop k ∧
        i'.byByte = i.byByte ∧ (k = 0 → i.remaining = [] ∧ i.byByte = true) ∧
        (i.byByte = true → k = min len i.remaining.length) := by
  have within : ¬ pos + len > s.length := Nat.not_lt.mpr inside
  unfold readBytes
  rw [if_neg within]
  cases i with
  | ofReadByte remaining =>
    right
    have kept : remaining.take (min len remaining.length) = remaining.take len := by
      rw [List.take_eq_take_iff]
      omega
    have left : remaining.drop (min len remaining.length) = remaining.drop len := by
      by_cases short : len ≤ remaining.length
      · rw [Nat.min_eq_left short]
      · rw [List.drop_of_length_le (by omega), List.drop_of_length_le (by omega)]
    refine ⟨min len remaining.length, ofReadByte (remaining.drop len), ?_, Nat.min_le_left ..,
      Nat.min_le_right .., left.symm, rfl, ?_, fun _ => rfl⟩
    · dsimp only [Input.remaining]
      rw [readByteLoop_eq inside, kept]
      dsimp only
      congr 2
      omega
    · intro zero
      refine ⟨List.length_eq_zero_iff.mp ?_, rfl⟩
      change remaining.length = 0
      omega
  | ofReadBytes remaining wishes calls =>
    cases remaining with
    | nil => exact .inl ⟨rfl, rfl, rfl⟩
    | cons b remaining =>
      right
      refine ⟨_, _, rfl, ?_, ?_, rfl, rfl, ?_, ?_⟩
      · omega
      · change _ ≤ (b :: remaining).length
        omega
      · intro zero
        rw [List.length_cons] at zero
        omega
      · intro other
        cases other

/-- The outcome of a request for a number of bytes at a position of a buffer. -/
def Delivered (i : Input) (s : List Byte) (pos len : Nat)
    (r : Except Thrown (Input × List Byte)) : Prop :=
  if len ≤ i.remaining.length then
    ∃ i', r = .ok (i', overwrite s pos (i.remaining.take len)) ∧
      i'.remaining = i.remaining.drop len
  else ∃ e, r = .error e

/-- What has been delivered up to a step of the loop. -/
def Advanced (i : Input) (s : List Byte) (pos len : Nat) (this : Reading) : Prop :=
  ∃ d ≤ len, d ≤ i.remaining.length ∧ this.pos = pos + d ∧ this.len = len - d ∧
    this.s = overwrite s pos (i.remaining.take d) ∧ this.input.remaining = i.remaining.drop d

theorem readStep_advanced {i : Input} {s : List Byte} {pos len : Nat}
    (inside : pos + len ≤ s.length) (this : Reading) (advanced : Advanced i s pos len this) :
    (∃ next, readStep this = .again next ∧ Advanced i s pos len next ∧ next.len < this.len) ∨
      ∃ r, readStep this = .done r ∧ Delivered i s pos len r := by
  obtain ⟨d, within, enough, atPos, left, buffer, rest⟩ := advanced
  have length : (i.remaining.take d).length = d := List.length_take_of_le enough
  unfold readStep
  by_cases more : this.len > 0
  · rw [if_pos more]
    have room : this.pos + this.len ≤ this.s.length := by
      rw [buffer, length_overwrite (by rw [length]; omega), atPos, left]
      omega
    have restLength : this.input.remaining.length = i.remaining.length - d := by
      rw [rest, List.length_drop]
    obtain ⟨empty, -, read⟩ | ⟨k, i', read, kLen, kRest, rest', -, zero, -⟩ :=
      this.input.readBytes_inside room more
    · rw [read]
      refine .inr ⟨_, rfl, ?_⟩
      rw [empty, List.length_nil] at restLength
      unfold Delivered
      rw [if_neg (by omega)]
      exact ⟨_, rfl⟩
    · rw [read]
      dsimp only
      split
      · rename_i none_
        rw [(zero none_).1, List.length_nil] at restLength
        refine .inr ⟨_, rfl, ?_⟩
        unfold Delivered
        rw [if_neg (by omega)]
        exact ⟨_, rfl⟩
      · refine .inl ⟨_, rfl, ⟨d + k, by omega, by omega, ?_, ?_, ?_, ?_⟩, ?_⟩
        · dsimp only
          omega
        · dsimp only
          omega
        · dsimp only
          have appended := @overwrite_append s (i.remaining.take d)
            ((i.remaining.drop d).take k) pos (by rw [length]; omega)
          rw [length] at appended
          rw [buffer, atPos, rest, appended, ← List.take_add]
        · dsimp only
          rw [rest', rest, List.drop_drop]
        · dsimp only
          omega
  · rw [if_neg more]
    refine .inr ⟨_, rfl, ?_⟩
    have all : d = len := by omega
    unfold Delivered
    rw [if_pos (by omega)]
    refine ⟨this.input, ?_, ?_⟩
    · rw [buffer, all]
    · rw [rest, all]

/-- `readFullBytes` delivers the next bytes, or it throws where there are fewer. -/
theorem readFullBytes_delivers (i : Input) {s : List Byte} {pos len : Nat}
    (inside : pos + len ≤ s.length) :
    ∃ fuel r, i.readFullBytes fuel s pos len = some r ∧ Delivered i s pos len r := by
  refine loop_ends (fun this => this.len) (readStep_advanced inside)
    ⟨0, Nat.zero_le _, Nat.zero_le _, rfl, rfl, ?_, rfl⟩
  rw [List.take_zero, overwrite_nil]

/-- `read` delivers the next bytes and nothing else. -/
theorem read_delivers (i : Input) (nbytes : Nat) :
    ∃ fuel r, i.read fuel nbytes = some r ∧
      if nbytes ≤ i.remaining.length then
        ∃ i', r = .ok (i', i.remaining.take nbytes) ∧ i'.remaining = i.remaining.drop nbytes
      else ∃ e, r = .error e := by
  have inside : 0 + nbytes ≤ (List.replicate nbytes (0 : Byte)).length :=
    Nat.le_of_eq (by rw [Nat.zero_add, List.length_replicate])
  obtain ⟨fuel, r, run, delivered⟩ := i.readFullBytes_delivers inside
  refine ⟨fuel, r, run, ?_⟩
  unfold Delivered at delivered
  split
  · rename_i enough
    rw [if_pos enough] at delivered
    have whole : overwrite (List.replicate nbytes 0) 0 (i.remaining.take nbytes) =
        i.remaining.take nbytes := by
      have length : (i.remaining.take nbytes).length = nbytes := List.length_take_of_le enough
      rw [overwrite, length, List.take_zero, List.nil_append, List.drop_of_length_le,
        List.append_nil]
      rw [List.length_replicate]
      exact Nat.le_add_left ..
    rwa [whole] at delivered
  · rename_i short
    rwa [if_neg short] at delivered

/-- What has been read up to a step of `readAll`. -/
structure Gathered (i : Input) (bufsize : Nat) (this : ReadingAll) : Prop where
  buf : this.buf.length = bufsize
  total : this.total ++ this.input.remaining = i.remaining
  kind : this.input.byByte = i.byByte

/-- The end of `readAll`: all of the bytes, or an error of a source by bytes. -/
def AllRead (i : Input) (r : Except Thrown (Input × List Byte)) : Prop :=
  if i.byByte then r = .error (.error .Blocked)
  else ∃ i', r = .ok (i', i.remaining) ∧ i'.remaining = []

theorem readAllStep_gathered {i : Input} {bufsize : Nat} (some_ : 0 < bufsize)
    (this : ReadingAll) (gathered : Gathered i bufsize this) :
    (∃ next, readAllStep bufsize this = .again next ∧ Gathered i bufsize next ∧
        next.input.remaining.length < this.input.remaining.length) ∨
      ∃ r, readAllStep bufsize this = .done r ∧ AllRead i r := by
  obtain ⟨buf, total, kind⟩ := gathered
  have room : 0 + bufsize ≤ this.buf.length := by omega
  unfold readAllStep
  obtain ⟨empty, other, read⟩ | ⟨k, i', read, kLen, kRest, rest, same, zero, -⟩ :=
    this.input.readBytes_inside room some_
  · rw [read]
    refine .inr ⟨_, rfl, ?_⟩
    unfold AllRead
    rw [← kind, other, ← total, empty, List.append_nil]
    exact ⟨this.input, rfl, empty⟩
  · rw [read]
    dsimp only
    split
    · rename_i none_
      refine .inr ⟨_, rfl, ?_⟩
      unfold AllRead
      rw [← kind, (zero none_).2]
      rfl
    · refine .inl ⟨_, rfl, ⟨?_, ?_, same.trans kind⟩, ?_⟩
      · rw [length_overwrite (by rw [List.length_take]; omega), buf]
      · have length : (this.input.remaining.take k).length = k := List.length_take_of_le kRest
        have taken := take_overwrite this.buf (this.input.remaining.take k)
        rw [length] at taken
        dsimp only
        rw [taken, rest, List.append_assoc, List.take_append_drop, total]
      · dsimp only
        rw [rest, List.length_drop]
        omega

theorem readAll_ends (i : Input) {bufsize : Nat} (some_ : 0 < bufsize) :
    ∃ fuel r, i.readAll fuel bufsize = some r ∧ AllRead i r :=
  loop_ends (fun this => this.input.remaining.length) (readAllStep_gathered some_)
    ⟨List.length_replicate, rfl, rfl⟩

end Input

end Haxe.Source.Io
