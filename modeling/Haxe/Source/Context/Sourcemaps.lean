import Mathlib.Algebra.Ring.Int.Defs
import Mathlib.Algebra.Ring.Nat
import Mathlib.Data.List.Basic
import Haxe.Theory.MappingsFormat

/-!
# Source maps

`context/sourcemaps.ml`. A string of the generated file is the list of its bytes. OCaml's
integers have 63 bits, so that a result is taken modulo `2 ^ 63`; of `Lexer.find_pos` only that
it gives a line and a column is used, and it is a parameter.
-/

namespace Haxe.Source.Sourcemaps

structure Pos where
  pfile : String
  pmin : Int
  pmax : Int
  deriving DecidableEq, Repr

/-- The integer an operation of the machine gives where the exact result is `n`. -/
def wrap (n : Int) : Int := n.bmod (2 ^ 63)

def chars : List Char := [
  'A', 'B', 'C', 'D', 'E', 'F', 'G', 'H', 'I', 'J', 'K', 'L', 'M', 'N', 'O', 'P',
  'Q', 'R', 'S', 'T', 'U', 'V', 'W', 'X', 'Y', 'Z', 'a', 'b', 'c', 'd', 'e', 'f',
  'g', 'h', 'i', 'j', 'k', 'l', 'm', 'n', 'o', 'p', 'q', 'r', 's', 't', 'u', 'v',
  'w', 'x', 'y', 'z', '0', '1', '2', '3', '4', '5', '6', '7', '8', '9', '+', '/']

/-- `Array.unsafe_get` at an index of which the type says that it is inside. -/
def encodeDigit (digit : Fin 64) : Char := chars.get (digit.cast (by decide))

def toVlq (number : Int) : Int :=
  if number < 0 then wrap (wrap (wrap (-number) * 2) + 1) else wrap (number * 2)

/-- The loop of `write_base64_vlq`; the continuation bit is the sixth. -/
def vlqDigits (vlq : Int) : List Char :=
  let digit := (vlq % 32).toNat
  let next := vlq / 32
  if next > 0 then encodeDigit (Fin.ofNat 64 (digit ||| 32)) :: vlqDigits next
  else [encodeDigit (Fin.ofNat 64 digit)]
termination_by vlq.toNat
decreasing_by omega

def base64Vlq (number : Int) : List Char := vlqDigits (toVlq number)

/-- The mutable fields of a `sourcemap_writer`. -/
structure Writer where
  buffer : List Char
  files : List String
  filesIndexes : List (String × Int)
  lastSrcFile : Int
  lastSrcLine : Int
  lastSrcCol : Int
  currentOutCol : Int
  lastOutCol : Int
  printComma : Bool
  lastMappedPos : Option Pos

def Writer.new : Writer := ⟨[], [], [], 0, 0, 0, 0, 0, false, none⟩

def newline : UInt8 := 10

/-- `String.index_from`. -/
def indexFrom (str : List UInt8) (i : Nat) (c : UInt8) : Option Nat :=
  ((str.drop i).idxOf? c).map (· + i)

theorem indexFrom_bounds {str : List UInt8} {i n : Nat} {c : UInt8}
    (found : indexFrom str i c = some n) : i ≤ n ∧ n < str.length := by
  unfold indexFrom at found
  obtain ⟨k, isk, rfl⟩ := Option.map_eq_some_iff.mp found
  have inside := List.findIdx?_eq_some_iff_findIdx_eq.mp isk
  rw [List.length_drop] at inside
  omega

namespace Writer

variable (findPos : Pos → Int × Int)

/-- `get_file_index`: the index of the file and the writer that knows it. -/
def getFileIndex (w : Writer) (pos : Pos) : Int × Writer :=
  match w.filesIndexes.lookup pos.pfile with
  | some index => (index, w)
  | none =>
    let index : Int := w.files.length
    (index, { w with
      filesIndexes := (pos.pfile, index) :: w.filesIndexes
      files := w.files ++ [pos.pfile] })

def writeBase64Vlq (w : Writer) (number : Int) : Writer :=
  { w with buffer := w.buffer ++ base64Vlq number }

/-- The part of `map` that writes the segment. -/
def writeSegment (w : Writer) (srcFile srcLine srcCol : Int) : Writer :=
  let w := if w.printComma then { w with buffer := w.buffer ++ [','] }
    else { w with printComma := true }
  let w := if w.lastOutCol = 0 then w.writeBase64Vlq 0
    else w.writeBase64Vlq (wrap (w.currentOutCol - w.lastOutCol))
  let w := w.writeBase64Vlq (wrap (srcFile - w.lastSrcFile))
  let w := w.writeBase64Vlq (wrap (srcLine - w.lastSrcLine))
  let w := w.writeBase64Vlq (wrap (srcCol - w.lastSrcCol))
  { w with
    lastSrcFile := srcFile
    lastSrcLine := srcLine
    lastSrcCol := srcCol
    lastOutCol := w.currentOutCol }

def map (w : Writer) (pos : Pos) : Writer :=
  let asked := { w with lastMappedPos := some pos }.getFileIndex pos
  let srcPos := findPos pos
  asked.2.writeSegment asked.1 (srcPos.1 - 1) srcPos.2

def handleNextNewLine (str : List UInt8) (previousIndex : Int) (w : Writer) : Writer :=
  match _found : indexFrom str (previousIndex + 1).toNat newline with
  | none =>
    if previousIndex ≥ 0 then
      { w with
        printComma := false
        currentOutCol := wrap (str.length - previousIndex)
        lastOutCol := 0 }
    else { w with currentOutCol := wrap (w.currentOutCol + str.length) }
  | some nextIndex =>
    handleNextNewLine str nextIndex { w with buffer := w.buffer ++ [';'] }
termination_by (str.length - previousIndex).toNat
decreasing_by
  have bounds := indexFrom_bounds _found
  omega

def stringWritten (w : Writer) (str : List UInt8) : Writer := handleNextNewLine str (-1) w

end Writer

/-- A call of a method of the writer. -/
inductive Call where
  | map (pos : Pos)
  | stringWritten (str : List UInt8)
  deriving DecidableEq, Repr

def Writer.call (findPos : Pos → Int × Int) (w : Writer) : Call → Writer
  | .map pos => w.map findPos pos
  | .stringWritten str => w.stringWritten str

/-- The writer after some calls on a new one. -/
def written (findPos : Pos → Int × Int) (calls : List Call) : Writer :=
  calls.foldl (Writer.call findPos) Writer.new

end Haxe.Source.Sourcemaps

/-!
## Source map builder

`sourcemap_builder` keeps its data in a list that is linked both ways, between two nodes
without data. A node is named by its place in the heap. The loops along the links have fuel,
and `die` is an error; neither runs out nor occurs in a list that is linked well.
-/

namespace Haxe.Source.Sourcemaps

inductive SmNodeData where
  | smPos (pos : Pos)
  | smStr (str : List UInt8)
  | smNil
  deriving DecidableEq, Repr

structure SmNode where
  smnLeft : Option Nat
  smnRight : Option Nat
  smnData : SmNodeData
  deriving DecidableEq, Repr

inductive BuilderError where
  | die
  | noNode
  | outOfFuel
  deriving DecidableEq, Repr

structure Builder where
  heap : List SmNode
  current : Nat
  deriving DecidableEq, Repr

namespace Builder

/-- `init_sourcemap_node_list`: the first node is current. -/
def new : Builder := ⟨[⟨none, some 1, .smNil⟩, ⟨some 0, none, .smNil⟩], 0⟩

def node (b : Builder) (n : Nat) : Except BuilderError SmNode :=
  match b.heap[n]? with
  | some node => .ok node
  | none => .error .noNode

def setRight (b : Builder) (n : Nat) (right : Option Nat) : Builder :=
  { b with heap := b.heap.modify n fun node => { node with smnRight := right } }

@[grind =] def setLeft (b : Builder) (n : Nat) (left : Option Nat) : Builder :=
  { b with heap := b.heap.modify n fun node => { node with smnLeft := left } }

@[grind =] def insert (b : Builder) (data : SmNodeData) : Except BuilderError Builder := do
  let current ← b.node b.current
  let inserted : SmNode := ⟨some b.current, current.smnRight, data⟩
  let address := b.heap.length
  let b : Builder := { b with heap := b.heap ++ [inserted] }
  let b := b.setRight b.current (some address)
  let b := match inserted.smnRight with
    | some right => b.setLeft right (some address)
    | none => b
  return { b with current := address }

def rewindLoop (b : Builder) : Nat → Option Nat → Except BuilderError Builder
  | 0, _ => .error .outOfFuel
  | _ + 1, none => .error .die
  | fuel + 1, some n => do
    let node ← b.node n
    match node.smnData with
    | .smNil => return { b with current := n }
    | _ => rewindLoop b fuel node.smnLeft

def rewind (b : Builder) : Except BuilderError Builder :=
  b.rewindLoop b.heap.length (some b.current)

def fastForwardLoop (b : Builder) : Nat → Nat → Except BuilderError Builder
  | 0, _ => .error .outOfFuel
  | fuel + 1, n => do
    let node ← b.node n
    match node.smnRight with
    | none => .error .die
    | some right =>
      match (← b.node right).smnData with
      | .smNil => return { b with current := n }
      | _ => fastForwardLoop b fuel right

def fastForward (b : Builder) : Except BuilderError Builder :=
  b.fastForwardLoop b.heap.length b.current

def seek (b : Builder) (node : Nat) : Builder := { b with current := node }

variable (findPos : Pos → Int × Int)

@[grind =] def generateLoop (b : Builder) : Nat → Nat → Writer → Except BuilderError Writer
  | 0, _, _ => .error .outOfFuel
  | fuel + 1, n, writer => do
    let node ← b.node n
    let writer := match node.smnData with
      | .smPos pos => writer.map findPos pos
      | .smStr str => writer.stringWritten str
      | .smNil => writer
    match node.smnRight with
    | none => return writer
    | some right => generateLoop b fuel right writer

/-- `generate` up to the text of the file: the writer that has all data, and the builder, which
is where it was. -/
def generate (b : Builder) : Except BuilderError (Writer × Builder) := do
  let pointer := b.current
  let b ← b.rewind
  let writer ← b.generateLoop findPos b.heap.length b.current Writer.new
  return (writer, b.seek pointer)

end Builder

end Haxe.Source.Sourcemaps

/-!
## Numbers in source maps

What a reader gets for a number that `write_base64_vlq` wrote. The shift in `to_vlq` leaves the
63 bits of an integer for numbers from `2 ^ 61` on; the loop then sees a negative number and
stops after one digit.
-/

namespace Haxe.Source.Sourcemaps

open Theory.MappingsFormat

/-- A number survives the shift of `to_vlq`. -/
def Fits (number : Int) : Prop := -2 ^ 61 < number ∧ number < 2 ^ 61

instance (number : Int) : Decidable (Fits number) := inferInstanceAs (Decidable (_ ∧ _))

theorem wrap_bounds (n : Int) : -2 ^ 62 ≤ wrap n ∧ wrap n < 2 ^ 62 := by
  have low := @Int.le_bmod n (2 ^ 63) (by decide)
  have high := @Int.bmod_lt n (2 ^ 63) (by decide)
  unfold wrap
  omega

theorem wrap_of_bounds {n : Int} (low : -2 ^ 62 ≤ n) (high : n < 2 ^ 62) : wrap n = n := by
  unfold wrap
  apply Int.bmod_eq_of_le <;> omega

theorem wrap_congr {a b : Int} (same : (2 ^ 63 : Int) ∣ a - b) : wrap a = wrap b := by
  unfold wrap
  apply Int.bmod_eq_bmod_iff_bmod_sub_eq_zero.mpr
  exact Int.bmod_eq_zero_of_dvd same

theorem wrap_dvd (n : Int) : (2 ^ 63 : Int) ∣ wrap n - n := Int.dvd_bmod_sub_self

/-- The bits of the number that the digits of the loop stand for. -/
def writtenBits (vlq : Int) : Nat := if vlq < 0 then (vlq % 32).toNat else vlq.toNat

theorem writtenBits_of_nonneg {vlq : Int} (nonneg : 0 ≤ vlq) : writtenBits vlq = vlq.toNat :=
  if_neg (by omega)

theorem or_continuation {digit : Nat} (small : digit < 32) : digit ||| 32 = digit + 32 := by
  rw [Nat.or_comm, ← Nat.two_pow_add_eq_or_of_lt (i := 5) small 1]
  omega

theorem read_encodeDigit (r : Reader) (d : Fin 64) : r.read (encodeDigit d) = some (r.digit d) := by
  have listed : ∀ d : Fin 64, alphabet.idxOf? (encodeDigit d) = some d.val ∧
      encodeDigit d ≠ ',' ∧ encodeDigit d ≠ ';' := by decide +kernel
  obtain ⟨index, comma, semicolon⟩ := listed d
  simp [Reader.read, comma, semicolon, index]

theorem read_vlqDigits (vlq : Int) (r : Reader) :
    (vlqDigits vlq).foldlM Reader.read r =
      some { r with
        fields := r.fields ++ [signed (r.value + writtenBits vlq * 2 ^ r.shift)]
        value := 0
        shift := 0 } := by
  induction vlq using vlqDigits.induct generalizing r with
  | case1 vlq next more ih =>
    have digit : (vlq % 32).toNat < 32 := by omega
    have value : (Fin.ofNat 64 ((vlq % 32).toNat ||| 32)).val = (vlq % 32).toNat + 32 := by
      rw [or_continuation digit]
      exact Nat.mod_eq_of_lt (by omega)
    have bits : writtenBits vlq = (vlq % 32).toNat + writtenBits (vlq / 32) * 32 := by
      unfold writtenBits
      split <;> split <;> omega
    rw [vlqDigits, if_pos more, List.foldlM_cons, read_encodeDigit, Option.bind_eq_bind,
      Option.bind_some, ih]
    unfold Reader.digit
    rw [value, if_neg (by omega)]
    simp only [Nat.add_sub_cancel, bits, Nat.pow_add, Nat.add_mul, Nat.mul_assoc, Nat.add_assoc]
    rw [Nat.mul_comm 32 (2 ^ r.shift)]
  | case2 vlq next last =>
    have digit : (vlq % 32).toNat < 32 := by omega
    have value : (Fin.ofNat 64 (vlq % 32).toNat).val = (vlq % 32).toNat :=
      Nat.mod_eq_of_lt (by omega)
    have bits : writtenBits vlq = (vlq % 32).toNat := by
      unfold writtenBits
      split <;> omega
    rw [vlqDigits, if_neg last, List.foldlM_cons, read_encodeDigit, Option.bind_eq_bind,
      Option.bind_some]
    unfold Reader.digit
    rw [value, if_pos digit, bits]
    rfl

/-- The number a reader gets. -/
def readBack (number : Int) : Int := signed (writtenBits (toVlq number))

theorem read_base64Vlq (number : Int) (r : Reader) (between : r.value = 0 ∧ r.shift = 0) :
    (base64Vlq number).foldlM Reader.read r =
      some { r with fields := r.fields ++ [readBack number] } := by
  unfold base64Vlq
  rw [read_vlqDigits]
  obtain ⟨line, column, source, sourceLine, sourceColumn, fields, value, shift, mappings⟩ := r
  obtain ⟨rfl, rfl⟩ := between
  simp [readBack]

theorem read_numbers (numbers : List Int) (r : Reader) (between : r.value = 0 ∧ r.shift = 0) :
    (numbers.flatMap base64Vlq).foldlM Reader.read r =
      some { r with fields := r.fields ++ numbers.map readBack } := by
  induction numbers generalizing r with
  | nil => simp
  | cons number numbers ih =>
    rw [List.flatMap_cons, List.foldlM_append, read_base64Vlq number r between,
      Option.bind_eq_bind, Option.bind_some,
      ih { r with fields := r.fields ++ [readBack number] } between]
    simp

theorem decodeNumber_base64Vlq (number : Int) :
    decodeNumber (base64Vlq number) = some (readBack number) := by
  unfold decodeNumber
  rw [read_base64Vlq number Reader.start ⟨rfl, rfl⟩]
  rfl

/-- Whatever is read back is small: a number out of range gives one digit. -/
theorem readBack_fits (number : Int) : Fits (readBack number) := by
  have bounds := signed_abs_le (writtenBits (toVlq number))
  have vlq : toVlq number < 2 ^ 62 := by
    unfold toVlq
    split
    · exact (wrap_bounds _).2
    · exact (wrap_bounds _).2
  have bits : writtenBits (toVlq number) < 2 ^ 62 := by
    unfold writtenBits
    split <;> omega
  unfold Fits readBack
  omega

theorem readBack_of_fits {number : Int} (fits : Fits number) : readBack number = number := by
  unfold Fits at fits
  unfold readBack toVlq
  split
  · rw [@wrap_of_bounds (-number) (by omega) (by omega),
      @wrap_of_bounds (-number * 2) (by omega) (by omega),
      wrap_of_bounds (by omega) (by omega), writtenBits_of_nonneg (by omega)]
    unfold signed
    split <;> omega
  · rw [wrap_of_bounds (by omega) (by omega), writtenBits_of_nonneg (by omega)]
    unfold signed
    split <;> omega

/-- A number is read back exactly if it fits. -/
theorem readBack_iff (number : Int) : readBack number = number ↔ Fits number := by
  constructor
  · intro same
    rw [← same]
    exact readBack_fits number
  · exact readBack_of_fits

/-- The same for a difference of which only the lowest 63 bits are known. -/
theorem readBack_wrap_iff (number : Int) : readBack (wrap number) = number ↔ Fits number := by
  constructor
  · intro same
    rw [← same]
    exact readBack_fits (wrap number)
  · intro fits
    have inside : wrap number = number := by
      unfold Fits at fits
      exact wrap_of_bounds (by omega) (by omega)
    rw [inside]
    exact readBack_of_fits fits

end Haxe.Source.Sourcemaps
