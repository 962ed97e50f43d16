import Haxe.Source.Std.StringEncoding
import Haxe.Theory.InterruptedRuns

/-!
# Values of JSON texts

The values that `haxe.format.JsonPrinter` and `haxe.format.JsonParser` exchange, and what a target
decides about strings and numbers. A string is the list of its code units; an object is the list of
its fields in the order of `Reflect.fields`.
-/

namespace Haxe.Source.Json

variable {F : Type}

/-- The values by what `Type.typeof` says of them. -/
inductive Value (F : Type) where
  | null
  | bool (b : Bool)
  | int (i : Int)
  | float (f : F)
  | string (s : List Nat)
  | array (items : List (Value F))
  | object (fields : List (List Nat × Value F))
  | stringMap (entries : List (List Nat × Value F))
  | instance_ (fields : List (List Nat × Value F))
  | date (text : List Nat)
  | enum_ (index : Nat)
  | function
  | unknown

/-- What the target provides. -/
structure Platform (F : Type) where
  encoding : Encoding
  hl : Bool
  /-- `StringTools.isEof` compares with zero, which is also what is read behind the end. -/
  eofIsZero : Bool
  /-- `Std.parseInt` -/
  parseInt : List Nat → Option Nat
  /-- What a null is as an `Int`; its use may also fail. -/
  nullInt : Option Nat
  /-- `Std.parseFloat` -/
  parseFloat : List Nat → F
  /-- `Std.int` -/
  int : F → Int
  /-- An `Int` as a `Float` -/
  ofInt : Int → F
  /-- `==` of floats -/
  equal : F → F → Bool
  /-- `Math.isFinite` -/
  isFinite : F → Bool
  /-- `Std.string` of a float -/
  floatText : F → List Nat

/-- `Reflect.setField` -/
def setField (fields : List (List Nat × Value F)) (name : List Nat) (value : Value F) :
    List (List Nat × Value F) :=
  match fields with
  | [] => [(name, value)]
  | field :: rest =>
    if field.1 = name then (name, value) :: rest else field :: setField rest name value

/-- A name that no field has. -/
theorem setField_fresh {fields : List (List Nat × Value F)} {name : List Nat}
    (fresh : name ∉ fields.map Prod.fst) (value : Value F) :
    setField fields name value = fields ++ [(name, value)] := by
  induction fields with
  | nil => rfl
  | cons field rest ih =>
    rw [List.map_cons, List.mem_cons, not_or] at fresh
    rw [setField, if_neg (Ne.symm fresh.1), ih fresh.2]
    rfl

end Haxe.Source.Json

/-!
## Reading JSON

`haxe.format.JsonParser` on a string `str`: each function is given the position and returns the one
behind what it read. A loop takes one unit of fuel for each turn, a call one for itself.
-/

namespace Haxe.Source.Json

open Theory.InterruptedRuns

variable {F : Type}

/-- What is thrown. -/
inductive Exn where
  /-- "Invalid char c at position pos" -/
  | invalidChar (c : Option Nat) (pos : Nat)
  /-- "Invalid number at position start: text" -/
  | invalidNumber (start : Nat) (text : List Nat)
  /-- "Invalid escape sequence \c at position pos" -/
  | invalidEscape (c : Option Nat) (pos : Nat)
  /-- "Unclosed string" -/
  | unclosedString
  /-- A null used as an `Int` where the target does not allow it. -/
  | nullInt
  deriving DecidableEq

abbrev Reading (α : Type) := Outcome Exn α

namespace Platform

variable (p : Platform F) (str : List Nat)

/-- `StringTools.fastCodeAt` -/
@[grind =] def fastCodeAt (index : Nat) : Option Nat :=
  match str[index]? with
  | some c => some c
  | none => if p.eofIsZero then some 0 else none

/-- `StringTools.isEof` -/
def isEof (c : Option Nat) : Bool := if p.eofIsZero then c == some 0 else c == none

/-- `StringBuf.addChar`: what is appended. -/
def addChar (c : Nat) : List Nat := p.encoding.addChar c

end Platform

section Tokens

variable (p : Platform F) (str : List Nat)

/-- `pos` is the one behind the character. -/
def invalidChar {α : Type} (pos : Nat) : Reading α :=
  .thrown (.invalidChar (p.fastCodeAt str (pos - 1)) (pos - 1))

def isSpace (c : Nat) : Bool :=
  c == ' '.toNat || c == '\r'.toNat || c == '\n'.toNat || c == '\t'.toNat

/-- The variables of `parseString` beside the position; −1 of `prev` is `none`. -/
structure StringState where
  start : Nat
  buf : Option (List Nat)
  prev : Option Nat
  deriving DecidableEq

namespace StringState

/-- `buf.addChar` -/
def add (s : StringState) (c : Nat) : StringState :=
  { s with buf := some (s.buf.getD [] ++ p.addChar c) }

def cancelSurrogate (s : StringState) : StringState :=
  { s.add p 65533 with prev := none }

/-- `buf.addSub(str, start, pos - start - 1)` with a new buffer if there is none. -/
def flush (s : StringState) (pos : Nat) : StringState :=
  { s with buf := some (s.buf.getD [] ++ substr str s.start (pos - s.start - 1)) }

end StringState

/-- The character of an escape sequence of one character. -/
def escaped (c : Nat) : Option Nat :=
  if c = 'r'.toNat then some 13
  else if c = 'n'.toNat then some 10
  else if c = 't'.toNat then some 9
  else if c = 'b'.toNat then some 8
  else if c = 'f'.toNat then some 12
  else if c = '/'.toNat ∨ c = '\\'.toNat ∨ c = '"'.toNat then some c
  else none

/-- The bytes of a code point, without `target.unicode`. -/
def utf8Units (uc : Nat) : List Nat :=
  if uc ≤ 0x7F then [uc]
  else if uc ≤ 0x7FF then [0xC0 ||| (uc >>> 6), 0x80 ||| (uc &&& 63)]
  else if uc ≤ 0xFFFF then
    [0xE0 ||| (uc >>> 12), 0x80 ||| ((uc >>> 6) &&& 63), 0x80 ||| (uc &&& 63)]
  else
    [0xF0 ||| (uc >>> 18), 0x80 ||| ((uc >>> 12) &&& 63), 0x80 ||| ((uc >>> 6) &&& 63),
      0x80 ||| (uc &&& 63)]

namespace StringState

/-- What is done with the number behind `\u`. -/
def addCode (s : StringState) (uc : Nat) : StringState :=
  if p.encoding = .bytes then { s with buf := some (s.buf.getD [] ++ utf8Units uc) }
  else
    match s.prev with
    | some prev =>
      if uc < 0xDC00 ∨ uc > 0xDFFF then s.cancelSurrogate p
      else { s.add p ((prev - 0xD800) * 1024 + (uc - 0xDC00) + 0x10000) with prev := none }
    | none => if uc ≥ 0xD800 ∧ uc ≤ 0xDBFF then { s with prev := some uc } else s.add p uc

/-- A surrogate in front of an escape sequence other than `\u`. -/
def cancelPrev (s : StringState) : StringState :=
  if s.prev.isSome then s.cancelSurrogate p else s

end StringState

/-- The number behind `\u`, at a position. -/
def unicodeEscape (pos : Nat) : Reading Nat :=
  match p.parseInt (ascii "0x" ++ substr str pos 4) with
  | some uc => .returned uc
  | none =>
    match p.nullInt with
    | some uc => .returned uc
    | none => .thrown .nullInt

/-- The escape sequence behind a backslash in front of the position. -/
@[grind =] def parseEscape (pos : Nat) (s : StringState) : Reading (StringState × Nat) :=
  let s := s.flush str pos
  let c := p.fastCodeAt str pos
  let pos := pos + 1
  if c = some 'u'.toNat then do
    let uc ← unicodeEscape p str pos
    let pos := pos + 4
    .returned ({ s.addCode p uc with start := pos }, pos)
  else
    let s := s.cancelPrev p
    match c.bind escaped with
    | some x => .returned ({ s.add p x with start := pos }, pos)
    | none => .thrown (.invalidEscape c (pos - 1))

/-- What a string is when its end is in front of the position. -/
def finishString (pos : Nat) (s : StringState) : List Nat :=
  let s := s.cancelPrev p
  match s.buf with
  | none => substr str s.start (pos - s.start - 1)
  | some buf => buf ++ substr str s.start (pos - s.start - 1)

/-- The bytes that are skipped behind a byte. -/
def skipped (c : Nat) : Nat :=
  1 + (if c ≥ 0xFC then 4 else if c ≥ 0xF8 then 3 else if c ≥ 0xF0 then 2
    else if c ≥ 0xE0 then 1 else 0)

/-- The loop of `parseString`. -/
@[grind =] def stringLoop : Nat → Nat → StringState → Reading (List Nat × Nat)
  | 0, _, _ => .exhausted
  | fuel + 1, pos, s =>
    let c := p.fastCodeAt str pos
    let pos := pos + 1
    if c = some '"'.toNat then .returned (finishString p str pos s, pos)
    else if c = some '\\'.toNat then do
      let r ← parseEscape p str pos s
      stringLoop fuel r.2 r.1
    else if p.encoding = .bytes ∧ 0x80 ≤ c.getD 0 then
      stringLoop fuel (pos + skipped (c.getD 0)) s
    else if p.isEof c then .thrown .unclosedString
    else stringLoop fuel pos s

def parseString (fuel pos : Nat) : Reading (List Nat × Nat) :=
  stringLoop p str fuel pos ⟨pos, none, none⟩

/-- The flags of `parseNumber`. -/
structure NumberState where
  minus : Bool
  digit : Bool
  zero : Bool
  point : Bool
  e : Bool
  pm : Bool
  deriving DecidableEq

/-- What a character is in a number. -/
inductive NumberStep where
  | next (s : NumberState)
  | invalid
  | last

def firstNumberState (c : Nat) : NumberState where
  minus := c == '-'.toNat
  digit := !(c == '-'.toNat)
  zero := c == '0'.toNat
  point := false
  e := false
  pm := false

@[grind =] def NumberState.step (s : NumberState) (c : Option Nat) : NumberStep :=
  match c with
  | none => if s.digit then .last else .invalid
  | some c =>
    if c = '0'.toNat then
      if s.zero && !s.point then .invalid
      else if s.minus then .next { s with minus := false, zero := true, digit := true }
      else .next { s with digit := true }
    else if '1'.toNat ≤ c ∧ c ≤ '9'.toNat then
      if s.zero && !s.point then .invalid
      else .next { s with minus := false, digit := true, zero := false }
    else if c = '.'.toNat then
      if s.minus || s.point || s.e then .invalid
      else .next { s with digit := false, point := true }
    else if c = 'e'.toNat ∨ c = 'E'.toNat then
      if s.minus || s.zero || s.e then .invalid
      else .next { s with digit := false, e := true }
    else if c = '+'.toNat ∨ c = '-'.toNat then
      if !s.e || s.pm then .invalid
      else .next { s with digit := false, pm := true }
    else if s.digit then .last else .invalid

/-- The loop of `parseNumber`, to the position behind the number. -/
@[grind =] def numberLoop (start : Nat) : Nat → Nat → NumberState → Reading (NumberState × Nat)
  | 0, _, _ => .exhausted
  | fuel + 1, pos, s =>
    match s.step (p.fastCodeAt str pos) with
    | .next s => numberLoop start fuel (pos + 1) s
    | .invalid => .thrown (.invalidNumber start (substr str start (pos + 1 - start)))
    | .last => .returned (s, pos)

/-- The value of a number by its text and whether it has a point. -/
def numberValue (text : List Nat) (point : Bool) : Value F :=
  let f := p.parseFloat text
  if point then .float f
  else
    let i := p.int f
    if p.equal (p.ofInt i) f then .int i else .float f

/-- `pos` is the one behind the first character. -/
def parseNumber (fuel pos c : Nat) : Reading (Value F × Nat) := do
  let start := pos - 1
  let r ← numberLoop p str start fuel pos (firstNumberState c)
  .returned (numberValue p (substr str start (r.2 - start)) r.1.point, r.2)

/-- The characters behind the first one of a literal. -/
def parseWord (pos : Nat) (word : List Nat) (v : Value F) : Reading (Value F × Nat) :=
  if substr str pos word.length = word then .returned (v, pos + word.length)
  else invalidChar p str pos

def isNumberStart (c : Nat) : Bool := ('0'.toNat ≤ c && c ≤ '9'.toNat) || c == '-'.toNat

mutual

@[grind =] def parseRec : Nat → Nat → Reading (Value F × Nat)
  | 0, _ => .exhausted
  | fuel + 1, pos =>
    match p.fastCodeAt str pos with
    | none => invalidChar p str (pos + 1)
    | some c =>
      let pos := pos + 1
      if isSpace c then parseRec fuel pos
      else if c = '{'.toNat then parseObject fuel pos [] none none
      else if c = '['.toNat then parseArray fuel pos [] none
      else if c = 't'.toNat then parseWord p str pos (ascii "rue") (.bool true)
      else if c = 'f'.toNat then parseWord p str pos (ascii "alse") (.bool false)
      else if c = 'n'.toNat then parseWord p str pos (ascii "ull") .null
      else if c = '"'.toNat then do
        let r ← parseString p str fuel pos
        .returned (.string r.1, r.2)
      else if isNumberStart c then parseNumber p str fuel pos c
      else invalidChar p str pos

/-- The loop of an object. -/
@[grind =]
def parseObject : Nat → Nat → List (List Nat × Value F) → Option (List Nat) → Option Bool →
    Reading (Value F × Nat)
  | 0, _, _, _, _ => .exhausted
  | fuel + 1, pos, obj, field, comma =>
    match p.fastCodeAt str pos with
    | none => invalidChar p str (pos + 1)
    | some c =>
      let pos := pos + 1
      if isSpace c then parseObject fuel pos obj field comma
      else if c = '}'.toNat then
        if field.isSome ∨ comma = some false then invalidChar p str pos
        else .returned (.object obj, pos)
      else if c = ':'.toNat then
        match field with
        | none => invalidChar p str pos
        | some name => do
          let r ← parseRec fuel pos
          parseObject fuel r.2 (setField obj name r.1) none (some true)
      else if c = ','.toNat then
        if comma = some true then parseObject fuel pos obj field (some false)
        else invalidChar p str pos
      else if c = '"'.toNat then
        if field.isSome ∨ comma = some true then invalidChar p str pos
        else do
          let r ← parseString p str fuel pos
          parseObject fuel r.2 obj (some r.1) comma
      else invalidChar p str pos

/-- The loop of an array. -/
@[grind =] def parseArray : Nat → Nat → List (Value F) → Option Bool → Reading (Value F × Nat)
  | 0, _, _, _ => .exhausted
  | fuel + 1, pos, arr, comma =>
    match p.fastCodeAt str pos with
    | none =>
      if comma = some true then invalidChar p str (pos + 1)
      else do
        let r ← parseRec fuel pos
        parseArray fuel r.2 (arr ++ [r.1]) (some true)
    | some c =>
      if isSpace c then parseArray fuel (pos + 1) arr comma
      else if c = ']'.toNat then
        if comma = some false then invalidChar p str (pos + 1)
        else .returned (.array arr, pos + 1)
      else if c = ','.toNat then
        if comma = some true then parseArray fuel (pos + 1) arr (some false)
        else invalidChar p str (pos + 1)
      else if comma = some true then invalidChar p str (pos + 1)
      else do
        let r ← parseRec fuel pos
        parseArray fuel r.2 (arr ++ [r.1]) (some true)

end

/-- The loop of `doParse`. -/
@[grind =] def trailing (result : Value F) : Nat → Nat → Reading (Value F)
  | 0, _ => .exhausted
  | fuel + 1, pos =>
    let c := p.fastCodeAt str pos
    if p.isEof c then .returned result
    else if isSpace (c.getD 0) then trailing result fuel (pos + 1)
    else invalidChar p str (pos + 1)

/-- `parse` -/
def parse (fuel : Nat) : Reading (Value F) := do
  let r ← parseRec p str fuel 0
  trailing p str r.1 fuel r.2

end Tokens

end Haxe.Source.Json

/-!
## Printing JSON

`haxe.format.JsonPrinter` without a replacer, and without the buffer of bytes that it has on Flash.
-/

namespace Haxe.Source.Json

variable {F : Type}

/-- `Std.string` of an `Int` -/
def decimal (i : Int) : List Nat :=
  if i < 0 then '-'.toNat :: (Nat.toDigits 10 i.natAbs).map Char.toNat
  else (Nat.toDigits 10 i.natAbs).map Char.toNat

/-- The loop of `StringTools.lpad`. -/
def padTo (c : List Nat) (l : Int) : Nat → List Nat → List Nat
  | 0, buf => buf
  | turns + 1, buf => if (buf.length : Int) < l then padTo c l turns (buf ++ c) else buf

/-- `StringTools.lpad`; each turn of its loop adds a character at least. -/
def lpad (s c : List Nat) (l : Int) : List Nat :=
  if c.length = 0 then s else padTo c (l - s.length) (l - s.length).toNat [] ++ s

/-- The fields of a printer that change. -/
structure Printing where
  buf : List Nat
  nind : Int
  deriving DecidableEq

namespace Printing

/-- `add`, and `addChar` of a character that is one code unit. -/
def add (text : List Nat) (s : Printing) : Printing := { s with buf := s.buf ++ text }

/-- `nind++` and `nind--` -/
def nest (by_ : Int) (s : Printing) : Printing := { s with nind := s.nind + by_ }

end Printing

/-- What `quote` writes for a character that has an escape sequence. -/
def escape (c : Nat) : Option (List Nat) :=
  if c = '"'.toNat then some (ascii "\\\"")
  else if c = '\\'.toNat then some (ascii "\\\\")
  else if c = '\n'.toNat then some (ascii "\\n")
  else if c = '\r'.toNat then some (ascii "\\r")
  else if c = '\t'.toNat then some (ascii "\\t")
  else if c = 8 then some (ascii "\\b")
  else if c = 12 then some (ascii "\\f")
  else none

section Quote

variable (p : Platform F)

/-- The code point of two surrogates on HashLink. -/
def hlPair (prev c : Nat) : Nat :=
  ((((BitVec.ofNat 32 prev - 0xD800#32) <<< 10) ||| (BitVec.ofNat 32 c - 0xDC00#32)) +
    0x10000#32).toNat

def isSurrogate (c : Nat) : Bool := 0xD800 ≤ c && c ≤ 0xDFFF

/-- The loop of `quote` on HashLink, where a surrogate waits for the next one. -/
@[grind =] def quoteHl (prev : Option Nat) : List Nat → List Nat
  | [] => if prev.isSome then p.addChar 0x25A1 else []
  | c :: rest =>
    match escape c with
    | some text => text ++ quoteHl prev rest
    | none =>
      match prev with
      | some high =>
        if isSurrogate c then p.addChar (hlPair high c) ++ quoteHl none rest
        else p.addChar 0x25A1 ++ quoteHl (some c) rest
      | none =>
        if isSurrogate c then quoteHl (some c) rest else p.addChar c ++ quoteHl none rest

/-- The loop of `quote`. -/
def quoteChars : List Nat → List Nat
  | [] => []
  | c :: rest => (escape c).getD (p.addChar c) ++ quoteChars rest

/-- `quote`: what is written. -/
def quote (s : List Nat) : List Nat :=
  '"'.toNat :: (if p.hl then quoteHl p none s else quoteChars p s) ++ ['"'.toNat]

end Quote

/-- `Reflect.isFunction` -/
def Value.isFunction : Value F → Bool
  | .function => true
  | _ => false

section Write

variable (p : Platform F) (space : Option (List Nat))

/-- `newl` and `ipad` -/
def Printing.line (s : Printing) : Printing :=
  match space with
  | none => s
  | some indent => s.add ('\n'.toNat :: lpad [] indent (s.nind * indent.length))

mutual

/-- `write` -/
@[grind =] def write : Value F → Printing → Printing
  | .unknown, s => s.add (ascii "\"???\"")
  | .object fields, s => (writeFields true fields (s.add ['{'.toNat])).add ['}'.toNat]
  | .int i, s => s.add (decimal i)
  | .float f, s => s.add (if p.isFinite f then p.floatText f else ascii "null")
  | .function, s => s.add (ascii "\"<fun>\"")
  | .string text, s => s.add (quote p text)
  | .array items, s => (writeItems true items (s.add ['['.toNat])).add [']'.toNat]
  | .stringMap entries, s => (writeFields true entries (s.add ['{'.toNat])).add ['}'.toNat]
  | .date text, s => s.add (quote p text)
  | .instance_ fields, s => (writeFields true fields (s.add ['{'.toNat])).add ['}'.toNat]
  | .enum_ index, s => s.add (decimal index)
  | .bool b, s => s.add (ascii (if b then "true" else "false"))
  | .null, s => s.add (ascii "null")

/-- The loop over the elements of an array. -/
@[grind =] def writeItems : Bool → List (Value F) → Printing → Printing
  | _, [], s => s
  | first, v :: rest, s =>
    let s := if first then s.nest 1 else s.add [','.toNat]
    let s := write v (s.line space)
    let s := if rest.isEmpty then (s.nest (-1)).line space else s
    writeItems false rest s

/-- The loop of `fieldsString`. -/
@[grind =] def writeFields : Bool → List (List Nat × Value F) → Printing → Printing
  | _, [], s => s
  | first, (name, v) :: rest, s =>
    if v.isFunction then writeFields first rest s
    else
      let s := if first then s.nest 1 else s.add [','.toNat]
      let s := ((s.line space).add (quote p name)).add [':'.toNat]
      let s := write v (if space.isSome then s.add [' '.toNat] else s)
      let s := if rest.isEmpty then (s.nest (-1)).line space else s
      writeFields false rest s

end

/-- `print` -/
def print (v : Value F) : List Nat := (write p space v ⟨[], 0⟩).buf

end Write

end Haxe.Source.Json
