import Mathlib.Algebra.Ring.Int.Defs
import Mathlib.Algebra.Ring.Nat
import Mathlib.Data.Fin.Basic

/-!
# Mappings of a source map

The reader of the `mappings` of a source map of version 3. A segment is a list of numbers in
Base64 VLQ, each relative to the segment before it; `,` ends a segment and `;` a line of
generated text, where the generated column starts again at zero.
-/

namespace Haxe.Theory.MappingsFormat

/-- A decoded segment: a place in the generated text and one in a source. -/
structure Mapping where
  line : Nat
  column : Int
  source : Int
  sourceLine : Int
  sourceColumn : Int
  deriving DecidableEq, Repr

/-- The digits of Base64 in order. -/
def alphabet : List Char :=
  "ABCDEFGHIJKLMNOPQRSTUVWXYZabcdefghijklmnopqrstuvwxyz0123456789+/".toList

/-- A number whose sign is its lowest bit. -/
def signed (value : Nat) : Int := if value % 2 = 1 then -(value / 2 : Nat) else (value / 2 : Nat)

/-- What has been read: `fields` are the numbers of the segment so far, `value` are the bits of
an unfinished one, `shift` of them. -/
structure Reader where
  line : Nat
  column : Int
  source : Int
  sourceLine : Int
  sourceColumn : Int
  fields : List Int
  value : Nat
  shift : Nat
  mappings : List Mapping
  deriving DecidableEq, Repr

def Reader.start : Reader := ⟨0, 0, 0, 0, 0, [], 0, 0, []⟩

namespace Reader

/-- The place a segment of four fields leads to. -/
def moved (r : Reader) (column source sourceLine sourceColumn : Int) : Reader :=
  { r with
    column := r.column + column
    source := r.source + source
    sourceLine := r.sourceLine + sourceLine
    sourceColumn := r.sourceColumn + sourceColumn
    fields := []
    mappings := r.mappings ++ [⟨r.line, r.column + column, r.source + source,
      r.sourceLine + sourceLine, r.sourceColumn + sourceColumn⟩] }

/-- The end of a segment: it has no field, a column only, or a place in a source with or without
a name. -/
def endSegment (r : Reader) : Option Reader :=
  if r.shift ≠ 0 then none
  else match r.fields with
    | [] => some r
    | [column] => some { r with column := r.column + column, fields := [] }
    | [column, source, sourceLine, sourceColumn] =>
      some (r.moved column source sourceLine sourceColumn)
    | [column, source, sourceLine, sourceColumn, _] =>
      some (r.moved column source sourceLine sourceColumn)
    | _ => none

/-- A digit of which the sixth bit says that the number goes on. -/
def digit (r : Reader) (d : Nat) : Reader :=
  if d < 32 then
    { r with fields := r.fields ++ [signed (r.value + d * 2 ^ r.shift)], value := 0, shift := 0 }
  else
    { r with value := r.value + (d - 32) * 2 ^ r.shift, shift := r.shift + 5 }

def read (r : Reader) (c : Char) : Option Reader :=
  if c = ',' then r.endSegment
  else if c = ';' then
    r.endSegment.map fun ended => { ended with line := ended.line + 1, column := 0 }
  else (alphabet.idxOf? c).map r.digit

end Reader

/-- The segments of a text. -/
def decode (text : List Char) : Option (List Mapping) := do
  let r ← text.foldlM Reader.read Reader.start
  let ended ← r.endSegment
  return ended.mappings

/-- The number a text stands for. -/
def decodeNumber (text : List Char) : Option Int :=
  match text.foldlM Reader.read Reader.start with
  | some ⟨0, 0, 0, 0, 0, [n], 0, 0, []⟩ => some n
  | _ => none

theorem signed_abs_le (value : Nat) : -(value / 2 : Nat) ≤ signed value ∧
    signed value ≤ (value / 2 : Nat) := by
  unfold signed
  split <;> omega

end Haxe.Theory.MappingsFormat
