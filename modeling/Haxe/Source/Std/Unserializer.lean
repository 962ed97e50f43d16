import Haxe.Theory.InterruptedRuns

/-!
# Dynamic values

The values that `haxe.Serializer` and `haxe.Unserializer` exchange, over the floats, the classes
and the enums of a target. What is compared by identity lives in a heap.
-/

namespace Haxe.Source.DynamicValues

inductive Value (F C E : Type) where
  | null
  | bool (b : Bool)
  | int (i : Int)
  | float (f : F)
  | string (s : List Char)
  | date (time : F)
  | class_ (c : C)
  | enum_ (e : E)
  | object (address : Nat)
  deriving DecidableEq

variable {F C E : Type}

/-- Which of the maps of `haxe.ds` an object is. -/
inductive MapKind where
  | string
  | int
  | object
  deriving DecidableEq

/-- The contents of an object. -/
inductive Cell (F C E : Type) where
  | array (items : List (Value F C E))
  | list (items : List (Value F C E))
  | map (kind : MapKind) (bindings : List (Value F C E × Value F C E))
  | fields (class_ : Option C) (fields : List (Value F C E × Value F C E))
  | enumValue (enum_ : E) (tag : Value F C E) (args : List (Value F C E))
  | bytes (data : List UInt8)
  deriving DecidableEq

namespace Value

/-- Two keys of a map or two names of a field that are the same. -/
def sameKey : Value F C E → Value F C E → Bool
  | string s, string s' => s == s'
  | int i, int i' => i == i'
  | object a, object a' => a == a'
  | _, _ => false

/-- The binding of a key, replaced or added. -/
def setKey (key value : Value F C E) :
    List (Value F C E × Value F C E) → List (Value F C E × Value F C E)
  | [] => [(key, value)]
  | binding :: rest =>
    if binding.1.sameKey key then (binding.1, value) :: rest
    else binding :: setKey key value rest

end Value

namespace Cell

/-- `push` of an array and `add` of a list. -/
def push (value : Value F C E) : Cell F C E → Cell F C E
  | array items => array (items ++ [value])
  | list items => list (items ++ [value])
  | cell => cell

/-- `a[a.length + n - 1] = null` of an array. A negative index changes no element. -/
def pushNulls (n : Int) : Cell F C E → Cell F C E
  | array items =>
    if 0 < n then array (items ++ List.replicate n.toNat .null)
    else if 0 ≤ items.length + n - 1 then array (items.set (items.length + n - 1).toNat .null)
    else array items
  | cell => cell

/-- `set` of a map, and `Reflect.setField` of an object. -/
def set (key value : Value F C E) : Cell F C E → Cell F C E
  | map kind bindings => map kind (Value.setKey key value bindings)
  | fields class_ names => fields class_ (Value.setKey key value names)
  | cell => cell

end Cell

/-- An `Int` keeps the lowest 32 bits. -/
def wrap (x : Int) : Int := x.bmod 0x100000000

end Haxe.Source.DynamicValues

/-!
## Reading serialized values

`haxe.Unserializer` on a buffer of characters. A position outside the buffer has no character, and
a `substr` of a negative length is empty. No class has custom hooks, so a call of one throws, and
so does an allocation of a negative size.
-/

namespace Haxe.Source.Unserializer

open Theory.InterruptedRuns DynamicValues

variable {F C E : Type}

/-- What the target and the resolver provide. -/
structure Platform (F C E : Type) where
  nan : F
  negativeInfinity : F
  positiveInfinity : F
  parseFloat : List Char → F
  dateFromString : List Char → Option F
  urlDecode : List Char → List Char
  resolveClass : Value F C E → Option C
  resolveEnum : Value F C E → Option E
  /-- `Type.getEnumConstructs` -/
  constructs : E → List (List Char)
  /-- What `Type.createEnum` throws for a number of arguments, if it throws. -/
  enumError : E → Value F C E → Nat → Option String
  /-- `Std.string` -/
  text : List (Cell F C E) → Value F C E → String

/-- The fields of an unserializer and the objects; of the run, the positions that it moved to and
the tokens that it consumed, the latest first. -/
structure State (F C E : Type) where
  pos : Int
  cache : List (Value F C E)
  scache : List (List Char)
  heap : List (Cell F C E)
  moves : List Int
  consumed : List (Int × Int)

/-- What is thrown: a text, or a value that was read. -/
inductive Thrown (F C E : Type) where
  | message (text : String)
  | value (v : Value F C E)

abbrev Reading (F C E : Type) := Run (State F C E) (Thrown F C E)

/-- `get` -/
def charAt (buf : List Char) (p : Int) : Option Char := if p < 0 then none else buf[p.toNat]?

theorem charAt_lt {buf : List Char} {p : Int} {c : Char} (at_ : charAt buf p = some c) :
    0 ≤ p ∧ p < buf.length := by
  unfold charAt at at_
  split at at_
  · exact nomatch at_
  · have := (List.getElem?_eq_some_iff.mp at_).1
    omega

def substr (buf : List Char) (pos len : Int) : List Char :=
  (buf.drop pos.toNat).take len.toNat

namespace State

def moveTo (p : Int) (s : State F C E) : State F C E := { s with pos := p, moves := p :: s.moves }

/-- `cache.push` -/
def cached (v : Value F C E) (s : State F C E) : State F C E := { s with cache := s.cache ++ [v] }

/-- `scache.push` -/
def scached (text : List Char) (s : State F C E) : State F C E :=
  { s with scache := s.scache ++ [text] }

/-- A new object. -/
def allocate (cell : Cell F C E) (s : State F C E) : State F C E :=
  { s with heap := s.heap ++ [cell] }

def update (address : Nat) (f : Cell F C E → Cell F C E) (s : State F C E) : State F C E :=
  { s with heap := s.heap.modify address f }

def consume (start : Int) (s : State F C E) : State F C E :=
  { s with consumed := (start, s.pos) :: s.consumed }

end State

def throwMessage {α : Type} (text : String) : Reading F C E α := Run.throw_ (.message text)

/-- `pos++` -/
def advance : Reading F C E Unit := Run.modify fun s => s.moveTo (s.pos + 1)

/-- `get(pos++)` -/
def next (buf : List Char) : Reading F C E (Option Char) := do
  let s ← Run.get
  advance
  return charAt buf s.pos

/-- A new object that the cache knows. -/
def allocateCached (cell : Cell F C E) : Reading F C E Nat := do
  let s ← Run.get
  Run.modify fun s => (s.allocate cell).cached (.object s.heap.length)
  return s.heap.length

/-- The loop of `readDigits`: the number, whether a minus sign was read, and where it ends. -/
def digits (buf : List Char) (fpos pos k : Int) (negative : Bool) : Int × Bool × Int :=
  match at_ : charAt buf pos with
  | none => (k, negative, pos)
  | some c =>
    if c = '-' then
      if pos ≠ fpos then (k, negative, pos) else digits buf fpos (pos + 1) k true
    else if c < '0' ∨ '9' < c then (k, negative, pos)
    else digits buf fpos (pos + 1) (wrap (k * 10 + (c.toNat - '0'.toNat))) negative
termination_by (buf.length - pos).toNat
decreasing_by
  all_goals
    have := charAt_lt at_
    omega

/-- The number at a position, and where it ends. -/
def digitsAt (buf : List Char) (pos : Int) : Int × Int :=
  let found := digits buf pos pos 0 false
  (if found.2.1 then wrap (found.1 * -1) else found.1, found.2.2)

def readDigits (buf : List Char) : Reading F C E Int := do
  let s ← Run.get
  let found := digitsAt buf s.pos
  Run.modify fun s => s.moveTo found.2
  return found.1

/-- The loop of `readFloat`. -/
def floatEnd (buf : List Char) (pos : Int) : Int :=
  match at_ : charAt buf pos with
  | none => pos
  | some c =>
    if 43 ≤ c.toNat ∧ c.toNat < 58 ∨ c = 'e' ∨ c = 'E' then floatEnd buf (pos + 1)
    else pos
termination_by (buf.length - pos).toNat
decreasing_by
  have := charAt_lt at_
  omega

def readFloat (platform : Platform F C E) (buf : List Char) : Reading F C E F := do
  let s ← Run.get
  let p := floatEnd buf s.pos
  Run.modify fun s => s.moveTo p
  return platform.parseFloat (substr buf s.pos (p - s.pos))

/-- The loop of `unserializeObject` with the step behind it. -/
def unserializeObject (buf : List Char) (read : Reading F C E (Value F C E)) (o : Nat) :
    Nat → Reading F C E Unit
  | 0 => Run.exhaust
  | fuel + 1 => do
    let s ← Run.get
    if buf.length ≤ s.pos then throwMessage "Invalid object"
    else if charAt buf s.pos = some 'g' then advance
    else do
      let k ← read
      match k with
      | .string _ => do
        let v ← read
        Run.modify fun s => s.update o (.set k v)
        unserializeObject buf read o fuel
      | _ => throwMessage "Invalid object key"

/-- The arguments of an enum value. -/
def readArgs (read : Reading F C E (Value F C E)) : Nat → Reading F C E (List (Value F C E))
  | 0 => return []
  | nargs + 1 => do
    let arg ← read
    let rest ← readArgs read nargs
    return arg :: rest

/-- `Type.createEnum` -/
def createEnum (platform : Platform F C E) (edecl : E) (tag : Value F C E)
    (args : List (Value F C E)) : Reading F C E (Value F C E) := do
  match platform.enumError edecl tag args.length with
  | some error => throwMessage error
  | none => do
    let s ← Run.get
    Run.modify fun s => s.allocate (.enumValue edecl tag args)
    return .object s.heap.length

def unserializeEnum (platform : Platform F C E) (buf : List Char)
    (read : Reading F C E (Value F C E)) (edecl : E) (tag : Value F C E) :
    Reading F C E (Value F C E) := do
  let c ← next buf
  if c ≠ some ':' then throwMessage "Invalid enum format"
  else do
    let nargs ← readDigits buf
    let args ← readArgs read nargs.toNat
    createEnum platform edecl tag args

/-- The loop of an array, without the step behind it. -/
def readArray (buf : List Char) (read : Reading F C E (Value F C E)) (a : Nat) :
    Nat → Reading F C E Unit
  | 0 => Run.exhaust
  | fuel + 1 => do
    let s ← Run.get
    if charAt buf s.pos = some 'h' then advance
    else if charAt buf s.pos = some 'u' then do
      advance
      let n ← readDigits buf
      Run.modify fun s => s.update a (.pushNulls n)
      readArray buf read a fuel
    else do
      let v ← read
      Run.modify fun s => s.update a (.push v)
      readArray buf read a fuel

/-- The loop of a list and the step behind it. -/
def readList (buf : List Char) (read : Reading F C E (Value F C E)) (l : Nat) :
    Nat → Reading F C E Unit
  | 0 => Run.exhaust
  | fuel + 1 => do
    let s ← Run.get
    if charAt buf s.pos = some 'h' then advance
    else do
      let v ← read
      Run.modify fun s => s.update l (.push v)
      readList buf read l fuel

/-- The loop of a `StringMap` or an `ObjectMap` and the step behind it. -/
def readMap (buf : List Char) (read : Reading F C E (Value F C E)) (h : Nat) :
    Nat → Reading F C E Unit
  | 0 => Run.exhaust
  | fuel + 1 => do
    let s ← Run.get
    if charAt buf s.pos = some 'h' then advance
    else do
      let k ← read
      let v ← read
      Run.modify fun s => s.update h (.set k v)
      readMap buf read h fuel

/-- The loop of an `IntMap`. -/
def readIntMap (buf : List Char) (read : Reading F C E (Value F C E)) (h : Nat) :
    Nat → Reading F C E Unit
  | 0 => Run.exhaust
  | fuel + 1 => do
    let c ← next buf
    if c = some ':' then do
      let i ← readDigits buf
      let v ← read
      Run.modify fun s => s.update h (.set (.int i) v)
      readIntMap buf read h fuel
    else if c ≠ some 'h' then throwMessage "Invalid IntMap format"
    else return

def readString (platform : Platform F C E) (buf : List Char) : Reading F C E (Value F C E) := do
  let len ← readDigits buf
  let c ← next buf
  let s ← Run.get
  if c ≠ some ':' ∨ buf.length - s.pos < len then throwMessage "Invalid string length"
  else do
    let text := platform.urlDecode (substr buf s.pos len)
    Run.modify fun s => (s.moveTo (s.pos + len)).scached text
    return .string text

def base64 : List Char := "ABCDEFGHIJKLMNOPQRSTUVWXYZabcdefghijklmnopqrstuvwxyz0123456789%:".toList

/-- `codes`, with zero for any other character. -/
def code (c : Char) : Nat := if c ∈ base64 then base64.idxOf c else 0

/-- The bytes that the codes of a text set. -/
def decode : List Char → List UInt8
  | c1 :: c2 :: c3 :: c4 :: rest =>
    .ofNat (code c1 <<< 2 ||| code c2 >>> 4) :: .ofNat (code c2 <<< 4 ||| code c3 >>> 2) ::
      .ofNat (code c3 <<< 6 ||| code c4) :: decode rest
  | [c1, c2, c3] =>
    [.ofNat (code c1 <<< 2 ||| code c2 >>> 4), .ofNat (code c2 <<< 4 ||| code c3 >>> 2)]
  | [c1, c2] => [.ofNat (code c1 <<< 2 ||| code c2 >>> 4)]
  | _ => []

def readBytes (buf : List Char) : Reading F C E (Value F C E) := do
  let len ← readDigits buf
  let c ← next buf
  let s ← Run.get
  if c ≠ some ':' ∨ buf.length - s.pos < len then throwMessage "Invalid bytes length"
  else if len < 0 then throwMessage "Invalid size"
  else do
    Run.modify fun s => s.moveTo (s.pos + len)
    let address ← allocateCached (.bytes (decode (substr buf s.pos len)))
    return .object address

def isDigit (c : Option Char) : Bool := c.any fun c => '0' ≤ c ∧ c ≤ '9'

def readDate (platform : Platform F C E) (buf : List Char) : Reading F C E (Value F C E) := do
  let s ← Run.get
  let p := s.pos
  if isDigit (charAt buf p) ∧ isDigit (charAt buf (p + 1)) ∧ isDigit (charAt buf (p + 2)) ∧
      isDigit (charAt buf (p + 3)) ∧ charAt buf (p + 4) = some '-' then
    match platform.dateFromString (substr buf p 19) with
    | none => throwMessage "Invalid date format"
    | some d => do
      Run.modify fun s => (s.moveTo (p + 19)).cached (.date d)
      return .date d
  else do
    let d ← readFloat platform buf
    Run.modify fun s => s.cached (.date d)
    return .date d

def readReference (buf : List Char) : Reading F C E (Value F C E) := do
  let n ← readDigits buf
  let s ← Run.get
  if n < 0 then throwMessage "Invalid reference"
  else match s.cache[n.toNat]? with
    | none => throwMessage "Invalid reference"
    | some v => return v

def readStringReference (buf : List Char) : Reading F C E (Value F C E) := do
  let n ← readDigits buf
  let s ← Run.get
  if n < 0 then throwMessage "Invalid string reference"
  else match s.scache[n.toNat]? with
    | none => throwMessage "Invalid string reference"
    | some text => return .string text

/-- The name of a class, and the class. -/
def readClass (platform : Platform F C E) (read : Reading F C E (Value F C E)) :
    Reading F C E C := do
  let name ← read
  let s ← Run.get
  match platform.resolveClass name with
  | none => throwMessage ("Class not found " ++ platform.text s.heap name)
  | some cl => return cl

/-- The name of an enum, with the enum. -/
def readEnum (platform : Platform F C E) (read : Reading F C E (Value F C E)) :
    Reading F C E (Value F C E × E) := do
  let name ← read
  let s ← Run.get
  match platform.resolveEnum name with
  | none => throwMessage ("Enum not found " ++ platform.text s.heap name)
  | some edecl => return (name, edecl)

def cacheValue (v : Value F C E) : Reading F C E (Value F C E) := do
  Run.modify fun s => s.cached v
  return v

/-- The constructor at an index of an enum, and its enum value. -/
def unserializeIndexed (platform : Platform F C E) (buf : List Char)
    (read : Reading F C E (Value F C E)) (e : Value F C E × E) (index : Int) :
    Reading F C E (Value F C E) := do
  let s ← Run.get
  match if index < 0 then none else (platform.constructs e.2)[index.toNat]? with
  | none => throwMessage ("Unknown enum index " ++ platform.text s.heap e.1 ++ "@" ++
      platform.text s.heap (.int index))
  | some tag => do
    let v ← unserializeEnum platform buf read e.2 (.string tag)
    cacheValue v

/-- The enum value behind `j`. -/
def readIndexedEnum (platform : Platform F C E) (buf : List Char)
    (read : Reading F C E (Value F C E)) : Reading F C E (Value F C E) := do
  let e ← readEnum platform read
  advance
  let index ← readDigits buf
  unserializeIndexed platform buf read e index

/-- A new object that the cache knows, filled by a loop. -/
def readInto (cell : Cell F C E) (loop : Nat → Reading F C E Unit) :
    Reading F C E (Value F C E) := do
  let address ← allocateCached cell
  loop address
  return .object address

/-- What follows the first character of a token; `read` is `unserialize` itself. -/
def unserializeRest (platform : Platform F C E) (buf : List Char)
    (read : Reading F C E (Value F C E)) (fuel : Nat) :
    Char → Option (Reading F C E (Value F C E))
  | 'n' => some (return .null)
  | 't' => some (return .bool true)
  | 'f' => some (return .bool false)
  | 'z' => some (return .int 0)
  | 'i' => some do return .int (← readDigits buf)
  | 'd' => some do return .float (← readFloat platform buf)
  | 'y' => some (readString platform buf)
  | 'k' => some (return .float platform.nan)
  | 'm' => some (return .float platform.negativeInfinity)
  | 'p' => some (return .float platform.positiveInfinity)
  | 'a' => some (readInto (.array []) fun a => readArray buf read a fuel)
  | 'o' => some (readInto (.fields none []) fun o => unserializeObject buf read o fuel)
  | 'r' => some (readReference buf)
  | 'R' => some (readStringReference buf)
  | 'x' => some do Run.throw_ (.value (← read))
  | 'c' => some do
    let cl ← readClass platform read
    readInto (.fields (some cl) []) fun o => unserializeObject buf read o fuel
  | 'w' => some do
    let e ← readEnum platform read
    let tag ← read
    let v ← unserializeEnum platform buf read e.2 tag
    cacheValue v
  | 'j' => some (readIndexedEnum platform buf read)
  | 'l' => some (readInto (.list []) fun l => readList buf read l fuel)
  | 'b' => some (readInto (.map .string []) fun h => readMap buf read h fuel)
  | 'q' => some (readInto (.map .int []) fun h => readIntMap buf read h fuel)
  | 'M' => some (readInto (.map .object []) fun h => readMap buf read h fuel)
  | 'v' => some (readDate platform buf)
  | 's' => some (readBytes buf)
  | 'C' => some do
    let cl ← readClass platform read
    let _ ← allocateCached (.fields (some cl) [])
    throwMessage "Invalid call"
  | 'A' => some do return .class_ (← readClass platform read)
  | 'B' => some do return .enum_ (← readEnum platform read).2
  | _ => none

/-- A character that begins no token is put back. -/
def invalidChar (buf : List Char) (pos : Int) : String :=
  "Invalid char " ++ String.ofList (charAt buf pos).toList ++ " at position " ++ toString pos

def unserialize (platform : Platform F C E) (buf : List Char) :
    Nat → Reading F C E (Value F C E)
  | 0 => Run.exhaust
  | fuel + 1 => do
    let s ← Run.get
    match (charAt buf s.pos).bind
        (unserializeRest platform buf (unserialize platform buf fuel) fuel) with
    | none => throwMessage (invalidChar buf s.pos)
    | some rest => do
      advance
      let v ← rest
      Run.modify fun s' => s'.consume s.pos
      return v

/-- `new` -/
def new_ : State F C E := ⟨0, [], [], [], [0], []⟩

end Haxe.Source.Unserializer
