import Mathlib.Algebra.BigOperators.Group.Finset.Basic
import Mathlib.Algebra.Order.BigOperators.Group.Finset
import Haxe.Source.Std.Streams

/-!
# What the writing loops pass on

The loops over `writeBytes`, by the part of the data that has been passed on up to each step.
-/

namespace Haxe.Source.Io

open Haxe.Theory.FueledLoops

namespace Output

/-- A call of the sink that accepted nothing, in front of the end of the data. -/
def Refused (o : Output) (data : List Byte) (r : Output × Except Thrown Unit) : Prop :=
  r.2 = .error (.error .Blocked) ∧
    ∃ call k, o.calls ≤ call ∧ r.1.calls = call + 1 ∧ o.accepts call = 0 ∧ k < data.length ∧
      r.1.written = o.written ++ data.take k

/-- All of the data has been passed on in order, or the sink accepted nothing. -/
def Passed (o : Output) (data : List Byte) (r : Output × Except Thrown Unit) : Prop :=
  (r.2 = .ok () ∧ r.1.written = o.written ++ data) ∨ Refused o data r

theorem writeBytes_inside (o : Output) {s : List Byte} {pos len : Nat}
    (inside : pos + len ≤ s.length) :
    o.writeBytes s pos len = .ok (min (o.accepts o.calls) len,
      { o with
        written := o.written ++ (s.drop pos).take (min (o.accepts o.calls) len)
        calls := o.calls + 1 }) := by
  unfold writeBytes
  rw [if_neg (Nat.not_lt.mpr inside)]

/-- What has been passed on of some data, the rest of which is in front of the loop. -/
structure Forwarded (o : Output) (data s : List Byte) (d : Nat) (this : Writing) : Prop where
  inside : this.pos + this.len ≤ s.length
  rest : (s.drop this.pos).take this.len = data.drop d
  within : d ≤ data.length
  written : this.output.written = o.written ++ data.take d
  accepts : this.output.accepts = o.accepts
  calls : o.calls ≤ this.output.calls

theorem Forwarded.length {o : Output} {data s : List Byte} {d : Nat} {this : Writing}
    (forwarded : Forwarded o data s d this) : this.len = data.length - d := by
  have inside := forwarded.inside
  have length := congrArg List.length forwarded.rest
  rw [List.length_take, List.length_drop, List.length_drop] at length
  omega

theorem Forwarded.step {o : Output} {data s : List Byte} {d : Nat} {this : Writing}
    (forwarded : Forwarded o data s d this) :
    ∃ k output, this.output.writeBytes s this.pos this.len = .ok (k, output) ∧
      k = min (o.accepts this.output.calls) this.len ∧ output.calls = this.output.calls + 1 ∧
      Forwarded o data s (d + k) ⟨output, this.pos + k, this.len - k⟩ := by
  have length := forwarded.length
  obtain ⟨inside, rest, within, written, accepts, calls⟩ := forwarded
  refine ⟨_, _, this.output.writeBytes_inside inside, by rw [accepts], rfl, ?_⟩
  generalize least : min (this.output.accepts this.output.calls) this.len = k
  have kLen : k ≤ this.len := least ▸ Nat.min_le_right ..
  constructor
  · dsimp only
    omega
  · dsimp only
    rw [← List.drop_drop, ← List.drop_drop, ← rest, List.drop_take]
  · omega
  · dsimp only
    rw [written, List.append_assoc, List.take_add, ← rest, List.take_take, Nat.min_eq_left kLen]
  · exact accepts
  · exact Nat.le_succ_of_le calls

theorem Forwarded.start (o : Output) {s : List Byte} {pos len : Nat}
    (inside : pos + len ≤ s.length) :
    Forwarded o ((s.drop pos).take len) s 0 ⟨o, pos, len⟩ :=
  ⟨inside, rfl, Nat.zero_le _, (List.append_nil _).symm, rfl, Nat.le_refl _⟩

theorem writeStep_forwarded {o : Output} {data s : List Byte} (this : Writing)
    (forwarded : ∃ d, Forwarded o data s d this) :
    (∃ next, writeStep true s this = .again next ∧ (∃ d, Forwarded o data s d next) ∧
        next.len < this.len) ∨
      ∃ r, writeStep true s this = .done r ∧ Passed o data r := by
  obtain ⟨d, forwarded⟩ := forwarded
  have length := forwarded.length
  unfold writeStep
  by_cases more : this.len > 0
  · rw [if_pos more]
    obtain ⟨k, output, write, least, calls, next⟩ := forwarded.step
    rw [write]
    dsimp only
    by_cases none_ : k = 0
    · rw [if_pos (by simp [none_])]
      refine .inr ⟨_, rfl, .inr ⟨rfl, this.output.calls, d, forwarded.calls, calls, ?_, ?_, ?_⟩⟩
      · omega
      · omega
      · dsimp only
        rw [next.written, none_, Nat.add_zero]
    · rw [if_neg (by simp [none_])]
      refine .inl ⟨_, rfl, ⟨_, next⟩, ?_⟩
      dsimp only
      omega
  · rw [if_neg more]
    refine .inr ⟨_, rfl, .inl ⟨rfl, ?_⟩⟩
    dsimp only
    rw [forwarded.written, List.take_of_length_le (by omega)]

/-- `write` passes on all of the bytes, or it throws where the sink accepts nothing. -/
theorem write_passes (o : Output) (s : List Byte) :
    ∃ fuel r, o.write fuel s = some r ∧ Passed o s r := by
  have start := @Forwarded.start o s 0 s.length (Nat.le_of_eq (by omega))
  rw [List.drop_zero, List.take_length] at start
  exact loop_ends (fun this => this.len) writeStep_forwarded ⟨0, start⟩

/-- How much the sink is willing to accept at some calls in a row. -/
def willing (o : Output) (call n : Nat) : Nat := ∑ j ∈ Finset.range n, o.accepts (call + j)

theorem willing_succ (o : Output) (call n : Nat) :
    o.willing call (n + 1) = o.accepts call + o.willing (call + 1) n := by
  unfold willing
  rw [Finset.sum_range_succ', Nat.add_comm, Nat.add_zero]
  congr 1
  refine Finset.sum_congr rfl fun j _ => ?_
  rw [Nat.add_right_comm, Nat.add_assoc]

theorem writeStep_unchecked {o : Output} {data s : List Byte} {d : Nat} {this : Writing}
    (forwarded : Forwarded o data s d this) (more : this.len > 0) :
    ∃ next, writeStep false s this = .again next ∧ (∃ d, Forwarded o data s d next) ∧
      next.len = this.len - o.accepts this.output.calls ∧
      next.output.calls = this.output.calls + 1 := by
  obtain ⟨k, output, write, least, calls, next⟩ := forwarded.step
  refine ⟨_, ?_, ⟨_, next⟩, ?_, calls⟩
  · unfold writeStep
    rw [if_pos more, write]
    rfl
  · dsimp only
    omega

theorem writeStep_finished {o : Output} {data s : List Byte} {d : Nat} {this : Writing}
    {checked : Bool} (forwarded : Forwarded o data s d this) (none_ : ¬ this.len > 0) :
    ∃ r, writeStep checked s this = .done r ∧ r.2 = .ok () ∧ r.1.written = o.written ++ data := by
  have length := forwarded.length
  unfold writeStep
  rw [if_neg none_]
  refine ⟨_, rfl, rfl, ?_⟩
  dsimp only
  rw [forwarded.written, List.take_of_length_le (by omega)]

/-- The loop ends where the sink is willing to accept as much as is left. -/
theorem loop_of_willing {o : Output} {data s : List Byte} {n : Nat} {this : Writing}
    (forwarded : ∃ d, Forwarded o data s d this)
    (enough : this.len ≤ o.willing this.output.calls n) :
    ∃ fuel r, loop (writeStep false s) fuel this = some r ∧ r.2 = .ok () ∧
      r.1.written = o.written ++ data := by
  induction n generalizing this with
  | zero =>
    obtain ⟨d, forwarded⟩ := forwarded
    have none_ : this.len ≤ 0 := enough
    obtain ⟨r, done, ends⟩ := writeStep_finished forwarded (by omega)
    exact ⟨1, r, loop_done done 0, ends⟩
  | succ n ih =>
    obtain ⟨d, forwarded⟩ := forwarded
    by_cases more : this.len > 0
    · obtain ⟨next, again, forwarded, len, calls⟩ := writeStep_unchecked forwarded more
      rw [willing_succ] at enough
      obtain ⟨fuel, r, run, ends⟩ := ih forwarded (by rw [calls]; omega)
      exact ⟨fuel + 1, r, (loop_again again fuel).trans run, ends⟩
    · obtain ⟨r, done, ends⟩ := writeStep_finished forwarded more
      exact ⟨1, r, loop_done done 0, ends⟩

theorem willing_of_loop {o : Output} {data s : List Byte} {fuel : Nat} {this : Writing}
    {r : Output × Except Thrown Unit} (forwarded : ∃ d, Forwarded o data s d this)
    (run : loop (writeStep false s) fuel this = some r) :
    ∃ n, this.len ≤ o.willing this.output.calls n := by
  induction fuel generalizing this with
  | zero => cases run
  | succ fuel ih =>
    obtain ⟨d, forwarded⟩ := forwarded
    by_cases more : this.len > 0
    · obtain ⟨next, again, forwarded, len, calls⟩ := writeStep_unchecked forwarded more
      rw [loop_again again] at run
      obtain ⟨n, enough⟩ := ih forwarded run
      rw [calls] at enough
      refine ⟨n + 1, ?_⟩
      rw [willing_succ]
      omega
    · exact ⟨0, by omega⟩

/-- `writeFullBytes` ends just where the sink accepts all of the bytes sooner or later. -/
theorem writeFullBytes_passes_iff (o : Output) {s : List Byte} {pos len : Nat}
    (inside : pos + len ≤ s.length) :
    (∃ fuel r, o.writeFullBytes fuel s pos len = some r ∧
        Passed o ((s.drop pos).take len) r) ↔
      ∃ n, len ≤ o.willing o.calls n := by
  have start := Forwarded.start o inside
  constructor
  · rintro ⟨fuel, r, run, -⟩
    exact willing_of_loop ⟨0, start⟩ run
  · rintro ⟨n, enough⟩
    obtain ⟨fuel, r, run, ends⟩ := loop_of_willing ⟨0, start⟩ enough
    exact ⟨fuel, r, run, .inl ends⟩

end Output

end Haxe.Source.Io

/-!
## What `writeInput` passes on

The loops of `writeInput` by the bytes that are passed on, the ones in the buffer and the ones that
the source has still to deliver. A source by bytes fills the buffer except at its end, so that the
calls of the sink are known.
-/

namespace Haxe.Source.Io

open Haxe.Theory.FueledLoops

namespace Output

/-- How many of `n` bytes the sink has taken behind some calls, where each block but the last one
fills the buffer. -/
@[grind =] def taken (o : Output) (bufsize n : Nat) : Nat → Nat
  | 0 => 0
  | calls + 1 =>
    let t := taken o bufsize n calls
    t + min (o.accepts (o.calls + calls)) (min (bufsize - t % bufsize) (n - t))

/-- The sink accepts nothing at a call in front of the end of the bytes. -/
def RefusesEarly (o : Output) (bufsize n : Nat) : Prop :=
  ∃ call, o.taken bufsize n call < n ∧ o.accepts (o.calls + call) = 0

theorem taken_mono (o : Output) (bufsize n : Nat) {calls calls' : Nat} (le : calls ≤ calls') :
    o.taken bufsize n calls ≤ o.taken bufsize n calls' := by
  induction le with
  | refl => exact Nat.le_refl _
  | step _ ih =>
    refine Nat.le_trans ih ?_
    rw [taken]
    exact Nat.le_add_right ..

/-- Where the loops stand: `t` bytes have been passed on. -/
structure Copied (o : Output) (i : Input) (bufsize t : Nat) (this : Copying) : Prop where
  buf : this.buf.length = bufsize
  inside : this.p + this.len ≤ bufsize
  rest : (this.buf.drop this.p).take this.len ++ this.input.remaining = i.remaining.drop t
  within : t ≤ i.remaining.length
  written : this.output.written = o.written ++ i.remaining.take t
  accepts : this.output.accepts = o.accepts
  calls : o.calls ≤ this.output.calls
  kind : this.input.byByte = i.byByte

/-- The calls of the sink for a source by bytes, none of which accepted nothing. -/
structure Counted (o : Output) (n bufsize t : Nat) (this : Copying) : Prop where
  taken : o.taken bufsize n (this.output.calls - o.calls) = t
  some_ : ∀ call, call < this.output.calls - o.calls → o.accepts (o.calls + call) ≠ 0
  block : (this.len = 0 ∧ (t % bufsize = 0 ∨ t = n)) ∨
    ∃ q, t = bufsize * q + this.p ∧ this.p + this.len = min bufsize (n - bufsize * q)

/-- The ends of the loops. -/
def CopyEnd (o : Output) (i : Input) (bufsize : Nat) (r : Output × Except Thrown Unit) : Prop :=
  (Refused o i.remaining r ∧
      (i.byByte = true → o.RefusesEarly bufsize i.remaining.length)) ∨
    (r.1.written = o.written ++ i.remaining ∧
      r.2 = (if i.byByte then .error (.error .Blocked) else .ok ()) ∧
      (i.byByte = true → ¬ o.RefusesEarly bufsize i.remaining.length))

def CopyState (o : Output) (i : Input) (bufsize : Nat) (this : Copying) : Prop :=
  ∃ t, Copied o i bufsize t this ∧
    (i.byByte = true → Counted o i.remaining.length bufsize t this)

/-- The part in the buffer, as a loop of `write` sees it. -/
theorem Copied.forwarded {o : Output} {i : Input} {bufsize t : Nat} {this : Copying}
    (copied : Copied o i bufsize t this) :
    Forwarded this.output ((this.buf.drop this.p).take this.len) this.buf 0
      ⟨this.output, this.p, this.len⟩ :=
  Forwarded.start this.output (by rw [copied.buf]; exact copied.inside)

theorem Copied.length {o : Output} {i : Input} {bufsize t : Nat} {this : Copying}
    (copied : Copied o i bufsize t this) :
    this.len + this.input.remaining.length = i.remaining.length - t := by
  have inside := copied.inside
  have buf := copied.buf
  have length := congrArg List.length copied.rest
  rw [List.length_append, List.length_take, List.length_drop, List.length_drop] at length
  omega

theorem Copied.buffered {o : Output} {i : Input} {bufsize t : Nat} {this : Copying}
    (copied : Copied o i bufsize t this) :
    ((this.buf.drop this.p).take this.len).length = this.len := by
  have inside := copied.inside
  have buf := copied.buf
  rw [List.length_take, List.length_drop]
  omega

/-- The request to the sink is the rest of a block. -/
theorem Counted.request {o : Output} {n bufsize t : Nat} {this : Copying}
    (counted : Counted o n bufsize t this) (more : this.len > 0) :
    this.len = min (bufsize - t % bufsize) (n - t) ∧
      ∃ q, t = bufsize * q + this.p ∧ this.p + this.len = min bufsize (n - bufsize * q) := by
  obtain ⟨none_, -⟩ | ⟨q, place, whole⟩ := counted.block
  · omega
  · refine ⟨?_, q, place, whole⟩
    have offset : t % bufsize = this.p := by
      rw [place, Nat.mul_add_mod, Nat.mod_eq_of_lt (show this.p < bufsize by omega)]
    omega

theorem Counted.write {o : Output} {n bufsize t k : Nat} {this next : Copying}
    (counted : Counted o n bufsize t this) (more : this.len > 0)
    (since : o.calls ≤ this.output.calls) (least : k = min (o.accepts this.output.calls) this.len)
    (accepts : k ≠ 0) (calls : next.output.calls = this.output.calls + 1)
    (p : next.p = this.p + k) (len : next.len = this.len - k) :
    Counted o n bufsize (t + k) next := by
  obtain ⟨request, q, place, whole⟩ := counted.request more
  have count : next.output.calls - o.calls = this.output.calls - o.calls + 1 := by omega
  have same : o.calls + (this.output.calls - o.calls) = this.output.calls :=
    Nat.add_sub_of_le since
  constructor
  · rw [count, Output.taken, counted.taken, same, ← request, ← least]
  · intro call before
    by_cases last : call = this.output.calls - o.calls
    · rw [last, same]
      omega
    · exact counted.some_ call (by omega)
  · refine .inr ⟨q, ?_, ?_⟩
    · omega
    · omega

/-- A block ends where the buffer is full or nothing is left. -/
theorem Counted.aligned {o : Output} {n bufsize t : Nat} {this : Copying}
    (counted : Counted o n bufsize t this) (none_ : this.len = 0) (within : t ≤ n) :
    t % bufsize = 0 ∨ t = n := by
  obtain ⟨-, ends⟩ | ⟨q, place, whole⟩ := counted.block
  · exact ends
  · rw [none_, Nat.add_zero] at whole
    by_cases full : this.p = bufsize
    · left
      rw [place, full, Nat.mul_add_mod, Nat.mod_self]
    · right
      omega

/-- A call of the sink. -/
theorem writeInputStep_write {o : Output} {i : Input} {bufsize : Nat} {this : Copying}
    (state : CopyState o i bufsize this) (more : this.len > 0) :
    (∃ next, writeInputStep bufsize this = .again next ∧ CopyState o i bufsize next ∧
        next.len < this.len ∧ next.input = this.input) ∨
      ∃ r, writeInputStep bufsize this = .done r ∧ CopyEnd o i bufsize r := by
  obtain ⟨t, copied, counted⟩ := state
  have length := copied.length
  have since := copied.calls
  obtain ⟨k, output, write, least, calls, next⟩ := copied.forwarded.step
  dsimp only at write least calls next
  rw [copied.accepts] at least
  rw [Nat.zero_add] at next
  have kLen : k ≤ ((this.buf.drop this.p).take this.len).length := by
    rw [copied.buffered]
    omega
  have written : output.written = o.written ++ i.remaining.take (t + k) := by
    rw [next.written, copied.written, List.append_assoc, List.take_add, ← copied.rest,
      List.take_append_of_le_length kLen]
  unfold writeInputStep
  rw [if_pos more, write]
  dsimp only
  by_cases none_ : k = 0
  · rw [if_pos none_]
    have refuses : o.accepts this.output.calls = 0 := by omega
    refine .inr ⟨_, rfl, .inl ⟨⟨rfl, this.output.calls, t, since, calls, refuses, ?_, ?_⟩, ?_⟩⟩
    · omega
    · rw [none_, Nat.add_zero] at written
      exact written
    · intro byByte
      refine ⟨this.output.calls - o.calls, ?_, ?_⟩
      · rw [(counted byByte).taken]
        omega
      · rwa [Nat.add_sub_of_le since]
  · rw [if_neg none_]
    have inside := copied.inside
    refine .inl ⟨_, rfl, ⟨t + k, ⟨copied.buf, ?_, ?_, ?_, written, ?_, ?_, copied.kind⟩, ?_⟩, ?_,
      rfl⟩
    · dsimp only
      omega
    · rw [← List.drop_drop, ← List.drop_drop, ← List.drop_take, ← copied.rest,
        List.drop_append_of_le_length kLen]
    · omega
    · exact next.accepts.trans copied.accepts
    · exact Nat.le_trans since next.calls
    · exact fun byByte => (counted byByte).write more since least none_ calls rfl rfl
    · dsimp only
      omega

/-- The sink has refused nothing in front of the end of the bytes. -/
theorem Counted.not_refusesEarly {o : Output} {n bufsize : Nat} {this : Copying}
    (counted : Counted o n bufsize n this) : ¬ o.RefusesEarly bufsize n := by
  rintro ⟨call, before, refuses⟩
  by_cases earlier : call < this.output.calls - o.calls
  · exact counted.some_ call earlier refuses
  · have all := o.taken_mono bufsize n (Nat.not_lt.mp earlier)
    rw [counted.taken] at all
    omega

/-- A call of the source, behind the last call of the sink for the bytes in the buffer. -/
theorem writeInputStep_read {o : Output} {i : Input} {bufsize : Nat} (some_ : 0 < bufsize)
    {this : Copying} (state : CopyState o i bufsize this) (none_ : this.len = 0) :
    (∃ next, writeInputStep bufsize this = .again next ∧ CopyState o i bufsize next ∧
        next.len + next.input.remaining.length = this.input.remaining.length ∧ 0 < next.len) ∨
      ∃ r, writeInputStep bufsize this = .done r ∧ CopyEnd o i bufsize r := by
  obtain ⟨t, copied, counted⟩ := state
  have length := copied.length
  have rest := copied.rest
  rw [none_, List.take_zero, List.nil_append] at rest
  have room : 0 + bufsize ≤ this.buf.length := by rw [Nat.zero_add, copied.buf]
  have ended (empty : this.input.remaining = []) : t = i.remaining.length := by
    have within := copied.within
    rw [empty, List.length_nil] at length
    omega
  have whole (empty : this.input.remaining = []) :
      this.output.written = o.written ++ i.remaining := by
    rw [copied.written, ended empty, List.take_length]
  unfold writeInputStep
  rw [if_neg (by omega)]
  obtain ⟨empty, other, read⟩ | ⟨k, i', read, kLen, kRest, rest', same, zero, full⟩ :=
    this.input.readBytes_inside room some_
  · rw [read]
    rw [copied.kind] at other
    refine .inr ⟨_, rfl, .inr ⟨whole empty, ?_, ?_⟩⟩
    · rw [other]
      rfl
    · intro byByte
      rw [other] at byByte
      cases byByte
  · rw [read]
    dsimp only
    split
    · rename_i nothing
      obtain ⟨empty, byByte⟩ := zero nothing
      rw [copied.kind] at byByte
      refine .inr ⟨_, rfl, .inr ⟨whole empty, ?_, fun _ => ?_⟩⟩
      · rw [byByte]
        rfl
      · have counted := counted byByte
        rw [ended empty] at counted
        exact counted.not_refusesEarly
    · rename_i something
      have delivered : (this.input.remaining.take k).length = k := List.length_take_of_le kRest
      have filled := take_overwrite this.buf (this.input.remaining.take k)
      rw [delivered] at filled
      refine .inl ⟨_, rfl, ⟨t, ⟨?_, ?_, ?_, copied.within, copied.written, copied.accepts,
        copied.calls, same.trans copied.kind⟩, fun byByte => ?_⟩, ?_, ?_⟩
      · rw [length_overwrite (by rw [delivered]; omega), copied.buf]
      · dsimp only
        omega
      · dsimp only
        rw [List.drop_zero, filled, rest', List.take_append_drop, rest]
      · have counted := counted byByte
        have count := full (copied.kind.trans byByte)
        have start : bufsize * (t / bufsize) = t := by
          obtain aligned | last := counted.aligned none_ copied.within
          · exact Nat.mul_div_cancel' (Nat.dvd_of_mod_eq_zero aligned)
          · omega
        refine ⟨counted.taken, counted.some_, .inr ⟨t / bufsize, start.symm, ?_⟩⟩
        dsimp only
        rw [start]
        omega
      · dsimp only
        rw [rest', List.length_drop]
        omega
      · exact Nat.pos_of_ne_zero something

theorem writeInput_ends (o : Output) (i : Input) {bufsize : Nat} (some_ : 0 < bufsize) :
    ∃ fuel r, o.writeInput fuel i bufsize = some r ∧ CopyEnd o i bufsize r := by
  refine @loop_ends _ _ (writeInputStep bufsize) (CopyState o i bufsize) _
    (fun this => 2 * this.input.remaining.length + this.len) (fun this state => ?_) _ ?_
  · by_cases more : this.len > 0
    · obtain ⟨next, again, state, lower, same⟩ | ends := writeInputStep_write state more
      · refine .inl ⟨next, again, state, ?_⟩
        rw [same]
        omega
      · exact .inr ends
    · obtain ⟨next, again, state, same, some_⟩ | ends :=
        writeInputStep_read some_ state (by omega)
      · refine .inl ⟨next, again, state, ?_⟩
        omega
      · exact .inr ends
  · refine ⟨0, ⟨List.length_replicate, Nat.zero_le _, ?_, Nat.zero_le _, ?_, rfl, Nat.le_refl _,
      rfl⟩, fun _ => ⟨?_, ?_, .inl ⟨rfl, .inl (Nat.zero_mod _)⟩⟩⟩
    · rfl
    · rw [List.take_zero, List.append_nil]
    · rw [Nat.sub_self]
      rfl
    · rw [Nat.sub_self]
      exact fun call before => absurd before (Nat.not_lt_zero call)

/-- `writeInput` keeps to its contract just where the source throws `Eof` itself, or where the sink
refuses to accept all of the bytes. -/
theorem writeInput_passes_iff (o : Output) (i : Input) {bufsize : Nat} (some_ : 0 < bufsize) :
    (∃ fuel r, o.writeInput fuel i bufsize = some r ∧ Passed o i.remaining r) ↔
      i.byByte = false ∨ o.RefusesEarly bufsize i.remaining.length := by
  obtain ⟨fuel, r, run, ends⟩ := o.writeInput_ends i some_
  constructor
  · rintro ⟨fuel', r', run', passed⟩
    obtain rfl := loop_unique run run'
    cases kind : i.byByte with
    | false => exact .inl rfl
    | true =>
      obtain ⟨-, early⟩ | ⟨whole, blocked, -⟩ := ends
      · exact .inr (early kind)
      · obtain ⟨returned, -⟩ | ⟨-, call, k, -, -, -, short, written⟩ := passed
        · rw [returned, kind] at blocked
          cases blocked
        · rw [whole, List.append_cancel_left_eq] at written
          have length := congrArg List.length written
          rw [List.length_take] at length
          omega
  · intro condition
    refine ⟨fuel, r, run, ?_⟩
    obtain ⟨refused, -⟩ | ⟨whole, outcome, late⟩ := ends
    · exact .inr refused
    · cases kind : i.byByte with
      | false =>
        rw [kind] at outcome
        exact .inl ⟨outcome, whole⟩
      | true =>
        obtain other | early := condition
        · rw [kind] at other
          cases other
        · exact absurd early (late kind)

end Output

end Haxe.Source.Io
