import Mathlib.Algebra.Ring.Nat
import Mathlib.Tactic.SplitIfs

/-!
# Numbers in HashLink code

`write_index_gen` and `write_debug_infos` of `genhl.ml`, with the readers of what they write.
-/

namespace Haxe.Source.HlWriter

/-- `write_index_gen`; `die` is `none`. -/
def writeIndexGen (i : Int) : Option (List Nat) :=
  if i < 0 then
    let i := (-i).toNat
    if i < 0x2000 then some [(i >>> 8) ||| 0xA0, i &&& 0xFF]
    else if i ≥ 0x20000000 then none
    else some [(i >>> 24) ||| 0xE0, (i >>> 16) &&& 0xFF, (i >>> 8) &&& 0xFF, i &&& 0xFF]
  else
    let i := i.toNat
    if i < 0x80 then some [i]
    else if i < 0x2000 then some [(i >>> 8) ||| 0x80, i &&& 0xFF]
    else if i ≥ 0x20000000 then none
    else some [(i >>> 24) ||| 0xC0, (i >>> 16) &&& 0xFF, (i >>> 8) &&& 0xFF, i &&& 0xFF]

/-- The sign bit of the two longer forms. -/
@[grind =] def signed (first : Nat) (magnitude : Nat) : Int :=
  if first.testBit 5 then -magnitude else magnitude

/-- The forms `0[7]`, `10[sign][5] [8]` and `11[sign][5] [24]`, and the bytes behind. -/
@[grind =] def readIndex : List Nat → Option (Int × List Nat)
  | [] => none
  | first :: rest =>
    if ¬ first.testBit 7 then some (first, rest)
    else if ¬ first.testBit 6 then
      match rest with
      | a :: rest => some (signed first (first % 2 ^ 5 * 2 ^ 8 + a), rest)
      | _ => none
    else
      match rest with
      | a :: b :: c :: rest =>
        some (signed first (first % 2 ^ 5 * 2 ^ 24 + a * 2 ^ 16 + b * 2 ^ 8 + c), rest)
      | _ => none

/-- The first byte of a longer form: the sign, and five bits of the number. -/
theorem header_short : ∀ five < 32, ∀ minus : Bool,
    let first := five ||| (if minus then 0xA0 else 0x80)
    first.testBit 7 = true ∧ first.testBit 6 = false ∧ first.testBit 5 = minus ∧
      first % 2 ^ 5 = five := by
  decide

theorem header_long : ∀ five < 32, ∀ minus : Bool,
    let first := five ||| (if minus then 0xE0 else 0xC0)
    first.testBit 7 = true ∧ first.testBit 6 = true ∧ first.testBit 5 = minus ∧
      first % 2 ^ 5 = five := by
  decide

theorem low_byte (n : Nat) : n &&& 0xFF = n % 256 := Nat.and_two_pow_sub_one_eq_mod n 8

theorem read_short {n : Nat} (minus : Bool) (fits : n < 0x2000) (rest : List Nat) :
    readIndex (((n >>> 8) ||| (if minus then 0xA0 else 0x80)) :: (n &&& 0xFF) :: rest) =
      some (if minus then -(n : Int) else n, rest) := by
  have five : n >>> 8 < 32 := by
    rw [Nat.shiftRight_eq_div_pow]
    omega
  obtain ⟨longer, short, sign, high⟩ := header_short _ five minus
  have number : n >>> 8 * 2 ^ 8 + (n &&& 0xFF) = n := by
    rw [Nat.shiftRight_eq_div_pow, low_byte]
    omega
  simp only [readIndex, signed, longer, short, sign, high, number, not_true, if_false,
    Bool.false_eq_true, not_false_eq_true, if_true]

theorem read_long {n : Nat} (minus : Bool) (fits : n < 0x20000000) (rest : List Nat) :
    readIndex (((n >>> 24) ||| (if minus then 0xE0 else 0xC0)) :: ((n >>> 16) &&& 0xFF) ::
      ((n >>> 8) &&& 0xFF) :: (n &&& 0xFF) :: rest) =
      some (if minus then -(n : Int) else n, rest) := by
  have five : n >>> 24 < 32 := by
    rw [Nat.shiftRight_eq_div_pow]
    omega
  obtain ⟨longer, long, sign, high⟩ := header_long _ five minus
  have number : n >>> 24 * 2 ^ 24 + ((n >>> 16) &&& 0xFF) * 2 ^ 16 +
      ((n >>> 8) &&& 0xFF) * 2 ^ 8 + (n &&& 0xFF) = n := by
    simp only [Nat.shiftRight_eq_div_pow, low_byte]
    omega
  simp only [readIndex, signed, longer, long, sign, high, number, not_true, if_false]

theorem read_seven {n : Nat} (fits : n < 0x80) (rest : List Nat) :
    readIndex (n :: rest) = some ((n : Int), rest) := by
  have short : n.testBit 7 = false := Nat.testBit_lt_two_pow fits
  simp only [readIndex, short, Bool.false_eq_true, not_false_eq_true, if_true]

/-- What is written for an index is read back. -/
theorem writeIndexGen_read {i : Int} (low : -0x20000000 < i) (high : i < 0x20000000) :
    ∃ bytes, writeIndexGen i = some bytes ∧
      ∀ rest, readIndex (bytes ++ rest) = some (i, rest) := by
  unfold writeIndexGen
  split
  · rename_i negative
    have number : -((-i).toNat : Int) = i := by omega
    dsimp only
    split
    · rename_i short
      refine ⟨_, rfl, fun rest => ?_⟩
      have read := read_short true short rest
      rw [if_pos rfl, if_pos rfl, number] at read
      exact read
    · rw [if_neg (by omega)]
      refine ⟨_, rfl, fun rest => ?_⟩
      have fits : (-i).toNat < 0x20000000 := by omega
      have read := read_long true fits rest
      rw [if_pos rfl, if_pos rfl, number] at read
      exact read
  · rename_i positive
    have number : (i.toNat : Int) = i := by omega
    dsimp only
    split
    · rename_i seven
      refine ⟨_, rfl, fun rest => ?_⟩
      have read := read_seven seven rest
      rw [number] at read
      exact read
    · split
      · rename_i short
        refine ⟨_, rfl, fun rest => ?_⟩
        have read := read_short false short rest
        rw [if_neg Bool.false_ne_true, if_neg Bool.false_ne_true, number] at read
        exact read
      · rw [if_neg (by omega)]
        refine ⟨_, rfl, fun rest => ?_⟩
        have fits : i.toNat < 0x20000000 := by omega
        have read := read_long false fits rest
        rw [if_neg Bool.false_ne_true, if_neg Bool.false_ne_true, number] at read
        exact read

/-! ## Debug positions -/

/-- The counters of `write_debug_infos`, and the bytes that it has written. -/
structure DebugWriter where
  curfile : Int
  curpos : Nat
  rcount : Nat
  written : List Nat
  deriving Repr

namespace DebugWriter

/-- `IO.write_byte`, which writes the low eight bits. -/
def byte (w : DebugWriter) (n : Nat) : DebugWriter :=
  { w with written := w.written ++ [n % 256] }

def flushRepeat (w : DebugWriter) (p : Nat) : DebugWriter :=
  if w.rcount > 0 then
    if w.rcount > 15 then
      flushRepeat { w.byte ((15 <<< 2) ||| 2) with rcount := w.rcount - 15 } p
    else
      let delta : Int := p - w.curpos
      let delta := if 0 < delta ∧ delta < 4 then delta.toNat else 0
      { w.byte ((delta <<< 6) ||| (w.rcount <<< 2) ||| 2) with
        rcount := 0
        curpos := w.curpos + delta }
  else w
termination_by w.rcount
decreasing_by exact Nat.sub_lt ‹w.rcount > 0› (by decide)

/-- A new file is written behind what repeats in the old one. -/
def changeFile (w : DebugWriter) (f p : Nat) : DebugWriter :=
  if (f : Int) ≠ w.curfile then
    let w := { w.flushRepeat p with curfile := f }
    (w.byte ((f >>> 7) ||| 1)).byte (f &&& 0xFF)
  else w

/-- A new line, by its distance or in full. -/
def changeLine (w : DebugWriter) (p : Nat) : DebugWriter :=
  let delta : Int := p - w.curpos
  let w :=
    if 0 < delta ∧ delta < 32 then w.byte ((delta.toNat <<< 3) ||| 4)
    else ((w.byte (p <<< 3)).byte (p >>> 5)).byte (p >>> 13)
  { w with curpos := p }

/-- The body of the iteration, for a file and a line. -/
def position (w : DebugWriter) (f p : Nat) : DebugWriter :=
  let w := w.changeFile f p
  let w := if p ≠ w.curpos then w.flushRepeat p else w
  if p = w.curpos then { w with rcount := w.rcount + 1 } else w.changeLine p

end DebugWriter

def writeDebugInfos (debug : List (Nat × Nat)) : List Nat :=
  let start : DebugWriter := ⟨-1, 0, 0, []⟩
  let w := debug.foldl (fun w entry => w.position entry.1 entry.2) start
  (w.flushRepeat w.curpos).written

/-- What a reader of debug positions goes by, and the entries that it has read. -/
structure DebugReader where
  file : Int
  line : Nat
  entries : List (Int × Nat)
  deriving DecidableEq, Repr

def DebugReader.start : DebugReader := ⟨-1, 0, []⟩

def DebugReader.emit (r : DebugReader) (line : Nat) : DebugReader :=
  { r with line := line, entries := r.entries ++ [(r.file, line)] }

/-- The reader's rules, up to the end of the bytes. -/
@[grind =] def readDebugInfos (r : DebugReader) : List Nat → Option DebugReader
  | [] => some r
  | byte :: rest =>
    if byte.testBit 0 then
      match rest with
      | next :: rest =>
        readDebugInfos { r with file := ((byte >>> 1) * 256 + next : Nat) } rest
      | [] => none
    else if byte.testBit 1 then
      let count := (byte >>> 2) &&& 15
      readDebugInfos
        { r with
          entries := r.entries ++ List.replicate count (r.file, r.line)
          line := r.line + (byte >>> 6) } rest
    else if byte.testBit 2 then readDebugInfos (r.emit (r.line + (byte >>> 3))) rest
    else
      match rest with
      | second :: third :: rest =>
        readDebugInfos (r.emit ((byte >>> 3) + second * 2 ^ 5 + third * 2 ^ 13)) rest
      | _ => none

/-- Bytes are read on from where those before them lead. -/
theorem readDebugInfos_append {r middle : DebugReader} {first : List Nat} (last : List Nat)
    (read : readDebugInfos r first = some middle) :
    readDebugInfos r (first ++ last) = readDebugInfos middle last := by
  fun_induction readDebugInfos r first with
  | case1 r => rw [← Option.some.inj read]; rfl
  | case2 r byte bit next rest ih => rw [← ih read]; simp [readDebugInfos, bit]
  | case3 => cases read
  | case4 r byte rest file bit count ih =>
    rw [← ih read, readDebugInfos.eq_def]
    simp [file, bit, count]
  | case5 r byte rest file repeated bit ih =>
    rw [← ih read, readDebugInfos.eq_def]
    simp [file, repeated, bit]
  | case6 r byte file repeated small second third rest ih =>
    rw [← ih read]
    simp [readDebugInfos, file, repeated, small]
  | case7 => cases read

/-! ## The bytes of one step -/

theorem read_file (r : DebugReader) {f : Nat} (fits : f < 2 ^ 15) :
    readDebugInfos r [((f >>> 7) ||| 1) % 256, (f &&& 0xFF) % 256] =
      some { r with file := f } := by
  have bit : ((((f >>> 7) ||| 1) % 256).testBit 0) = true := by
    rw [show 256 = 2 ^ 8 from rfl, Nat.testBit_mod_two_pow, Nat.testBit_or]
    simp
  have high : (((f >>> 7) ||| 1) % 256) >>> 1 = f / 256 := by
    rw [show 256 = 2 ^ 8 from rfl, ← Nat.shiftRight_eq_div_pow f 8]
    apply Nat.eq_of_testBit_eq
    intro i
    have above : (1 : Nat).testBit (1 + i) = false := by
      rw [Nat.add_comm, Nat.testBit_succ]
      exact Nat.zero_testBit i
    simp only [Nat.testBit_shiftRight, Nat.testBit_mod_two_pow, Nat.testBit_or, above,
      Bool.or_false, ← Nat.add_assoc, Nat.reduceAdd]
    by_cases inside : i < 7
    · rw [decide_eq_true (by omega), Bool.true_and]
    · have beyond : f.testBit (8 + i) = false :=
        Nat.testBit_lt_two_pow (Nat.lt_of_lt_of_le fits (Nat.pow_le_pow_right (by decide) (by omega)))
      rw [beyond, Bool.and_false]
  simp only [readDebugInfos, bit, high, low_byte, if_true, Nat.mod_mod, Option.some.injEq,
    DebugReader.mk.injEq, and_true]
  omega

theorem repeat_byte : ∀ delta < 4, ∀ count < 16,
    (((delta <<< 6) ||| (count <<< 2) ||| 2) % 256).testBit 0 = false ∧
    (((delta <<< 6) ||| (count <<< 2) ||| 2) % 256).testBit 1 = true ∧
    ((((delta <<< 6) ||| (count <<< 2) ||| 2) % 256) >>> 2) &&& 15 = count ∧
    (((delta <<< 6) ||| (count <<< 2) ||| 2) % 256) >>> 6 = delta := by
  decide

theorem read_repeat (r : DebugReader) {delta count : Nat} (small : delta < 4)
    (fits : count < 16) :
    readDebugInfos r [((delta <<< 6) ||| (count <<< 2) ||| 2) % 256] =
      some { r with
        entries := r.entries ++ List.replicate count (r.file, r.line)
        line := r.line + delta } := by
  obtain ⟨file, bit, times, further⟩ := repeat_byte delta small count fits
  simp only [readDebugInfos, file, bit, times, further, if_true, Bool.false_eq_true, if_false]

theorem delta_byte : ∀ delta < 32,
    (((delta <<< 3) ||| 4) % 256).testBit 0 = false ∧
    (((delta <<< 3) ||| 4) % 256).testBit 1 = false ∧
    (((delta <<< 3) ||| 4) % 256).testBit 2 = true ∧
    (((delta <<< 3) ||| 4) % 256) >>> 3 = delta := by
  decide

theorem read_delta (r : DebugReader) {delta : Nat} (small : delta < 32) :
    readDebugInfos r [((delta <<< 3) ||| 4) % 256] = some (r.emit (r.line + delta)) := by
  obtain ⟨file, repeated, bit, further⟩ := delta_byte delta small
  simp only [readDebugInfos, file, repeated, bit, further, if_true, Bool.false_eq_true, if_false]

theorem read_position (r : DebugReader) {p : Nat} (fits : p < 2 ^ 21) :
    readDebugInfos r [(p <<< 3) % 256, (p >>> 5) % 256, (p >>> 13) % 256] =
      some (r.emit p) := by
  have file : ((p <<< 3) % 256).testBit 0 = false := by
    rw [show 256 = 2 ^ 8 from rfl, Nat.testBit_mod_two_pow, Nat.testBit_shiftLeft]
    rfl
  have repeated : ((p <<< 3) % 256).testBit 1 = false := by
    rw [show 256 = 2 ^ 8 from rfl, Nat.testBit_mod_two_pow, Nat.testBit_shiftLeft]
    rfl
  have small : ((p <<< 3) % 256).testBit 2 = false := by
    rw [show 256 = 2 ^ 8 from rfl, Nat.testBit_mod_two_pow, Nat.testBit_shiftLeft]
    rfl
  have line : ((p <<< 3) % 256) >>> 3 + (p >>> 5) % 256 * 2 ^ 5 + (p >>> 13) % 256 * 2 ^ 13 = p := by
    rw [Nat.shiftLeft_eq, Nat.shiftRight_eq_div_pow, Nat.shiftRight_eq_div_pow,
      Nat.shiftRight_eq_div_pow]
    omega
  simp only [readDebugInfos, file, repeated, small, line, Bool.false_eq_true, if_false]

/-! ## What has been written -/

/-- What has been written reads as the entries, but for those that repeat. -/
def Caught (w : DebugWriter) (entries : List (Int × Nat)) : Prop :=
  ∃ before, readDebugInfos .start w.written = some ⟨w.curfile, w.curpos, before⟩ ∧
    before ++ List.replicate w.rcount (w.curfile, w.curpos) = entries

/-- Nothing repeats: what has been written reads as the entries. -/
def Flushed (w : DebugWriter) (entries : List (Int × Nat)) : Prop :=
  w.rcount = 0 ∧ readDebugInfos .start w.written = some ⟨w.curfile, w.curpos, entries⟩

theorem Flushed.caught {w : DebugWriter} {entries : List (Int × Nat)} (done : Flushed w entries) :
    Caught w entries :=
  ⟨entries, done.2, by rw [done.1, List.replicate_zero, List.append_nil]⟩

theorem Caught.flushed {w : DebugWriter} {entries : List (Int × Nat)} (caught : Caught w entries)
    (none : w.rcount = 0) : Flushed w entries := by
  obtain ⟨before, read, together⟩ := caught
  rw [none, List.replicate_zero, List.append_nil] at together
  exact ⟨none, together ▸ read⟩

theorem flushRepeat_flushed (w : DebugWriter) (p : Nat) {entries : List (Int × Nat)}
    (caught : Caught w entries) :
    Flushed (w.flushRepeat p) entries ∧ (w.flushRepeat p).curfile = w.curfile := by
  fun_induction DebugWriter.flushRepeat w p with
  | case1 w some many ih =>
    obtain ⟨before, read, together⟩ := caught
    have fifteen := @read_repeat ⟨w.curfile, w.curpos, before⟩ 0 15 (by decide) (by decide)
    refine ih ⟨before ++ List.replicate 15 (w.curfile, w.curpos), ?_, ?_⟩
    · exact (readDebugInfos_append _ read).trans fifteen
    · show _ ++ List.replicate (w.rcount - 15) (w.curfile, w.curpos) = _
      rw [List.append_assoc, List.replicate_append_replicate, Nat.add_sub_cancel' (by omega)]
      exact together
  | case2 w some few delta delta' =>
    obtain ⟨before, read, together⟩ := caught
    have small : delta' < 4 := by
      simp only [delta']
      split <;> omega
    have last := read_repeat ⟨w.curfile, w.curpos, before⟩ small
      (Nat.lt_succ_of_le (Nat.le_of_not_lt few))
    refine ⟨⟨rfl, ?_⟩, rfl⟩
    rw [← together]
    exact (readDebugInfos_append _ read).trans last
  | case3 w none => exact ⟨caught.flushed (by omega), rfl⟩

theorem changeFile_caught (w : DebugWriter) {f : Nat} (p : Nat) (fits : f < 2 ^ 15)
    {entries : List (Int × Nat)} (caught : Caught w entries) :
    Caught (w.changeFile f p) entries ∧ (w.changeFile f p).curfile = f := by
  unfold DebugWriter.changeFile
  split
  · obtain ⟨none, read⟩ := (flushRepeat_flushed w p caught).1
    refine ⟨Flushed.caught ⟨none, ?_⟩, rfl⟩
    have file := readDebugInfos_append _ read |>.trans (read_file _ fits)
    simp only [DebugWriter.byte, List.append_assoc, List.singleton_append]
    exact file
  · rename_i same
    exact ⟨caught, by omega⟩

theorem changeLine_caught (w : DebugWriter) {p : Nat} (fits : p < 2 ^ 21)
    {entries : List (Int × Nat)} (flushed : Flushed w entries) :
    Caught (w.changeLine p) (entries ++ [(w.curfile, p)]) := by
  obtain ⟨none, read⟩ := flushed
  unfold DebugWriter.changeLine
  refine Flushed.caught ⟨?_, ?_⟩
  · dsimp only
    split <;> exact none
  · dsimp only
    split
    · rename_i near
      have small : ((p : Int) - w.curpos).toNat < 32 := by omega
      have line : w.curpos + ((p : Int) - w.curpos).toNat = p := by omega
      have step := read_delta ⟨w.curfile, w.curpos, entries⟩ small
      rw [line] at step
      exact (readDebugInfos_append _ read).trans step
    · have step := readDebugInfos_append _ read |>.trans (read_position _ fits)
      simp only [DebugWriter.byte, List.append_assoc, List.singleton_append]
      exact step

theorem position_caught (w : DebugWriter) {f p : Nat} (file : f < 2 ^ 15) (line : p < 2 ^ 21)
    {entries : List (Int × Nat)} (caught : Caught w entries) :
    Caught (w.position f p) (entries ++ [((f : Int), p)]) := by
  obtain ⟨kept, current⟩ := changeFile_caught w p file caught
  unfold DebugWriter.position
  generalize w.changeFile f p = w at kept current
  dsimp only
  by_cases same : p = w.curpos
  · -- one more of the same position
    rw [if_neg (not_not_intro same), if_pos same, same, ← current]
    obtain ⟨before, read, together⟩ := kept
    refine ⟨before, read, ?_⟩
    rw [List.replicate_succ', ← List.append_assoc, together]
  · rw [if_pos same]
    obtain ⟨flushed, unchanged⟩ := flushRepeat_flushed w p kept
    rw [← current, ← unchanged]
    generalize w.flushRepeat p = w at flushed
    split
    · rename_i reached
      -- the last repetition has moved the line
      obtain ⟨none, read⟩ := flushed
      refine ⟨entries, read, ?_⟩
      rw [none, reached]
      rfl
    · exact changeLine_caught w line flushed

/-- The positions as the reader has them. -/
def entriesOf (debug : List (Nat × Nat)) : List (Int × Nat) :=
  debug.map fun entry => ((entry.1 : Int), entry.2)

theorem positions_caught {debug : List (Nat × Nat)}
    (fits : ∀ entry ∈ debug, entry.1 < 2 ^ 15 ∧ entry.2 < 2 ^ 21) (w : DebugWriter)
    {entries : List (Int × Nat)} (caught : Caught w entries) :
    Caught (debug.foldl (fun w entry => w.position entry.1 entry.2) w)
      (entries ++ entriesOf debug) := by
  induction debug generalizing w entries with
  | nil => rw [entriesOf, List.map_nil, List.append_nil]; exact caught
  | cons entry rest ih =>
    obtain ⟨file, line⟩ := fits entry List.mem_cons_self
    have step := position_caught w file line caught
    have later := ih (fun other member => fits other (List.mem_cons_of_mem entry member)) _ step
    rw [List.append_assoc] at later
    exact later

end Haxe.Source.HlWriter
