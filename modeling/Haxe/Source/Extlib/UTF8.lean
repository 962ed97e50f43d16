import Mathlib.Data.Int.Bitwise

/-!
# UTF-8

`libs/extlib-leftovers/uTF8.ml`, which encodes every code point below `2 ^ 31`, in up to six
bytes. A string is the list of the codes of its bytes.
-/

namespace Haxe.Source.UTF8

/-- The integers that `UCharExt.uchar_of_int` accepts. -/
abbrev CodePoint := Fin (2 ^ 31)

/-- The exceptions of the string functions. `outsideString` is a read without a bounds check that
leaves the string, and `outOfFuel` stands for a loop that does not end. -/
inductive Failure where
  | invalidArgument
  | notFound
  | malformed
  | outsideString
  | die
  | outOfFuel
  deriving DecidableEq, Repr

abbrev Res := Except Failure

/-- `s.[i]` -/
def charCode (s : List Nat) (i : Int) : Res Nat :=
  if 0 ≤ i then
    match s[i.toNat]? with
    | some n => .ok n
    | none => .error .invalidArgument
  else .error .invalidArgument

/-- `UCharExt.uchar_of_int` -/
def ucharOfInt (n : Int) : Res CodePoint :=
  if h : 0 ≤ n ∧ n < 2 ^ 31 then .ok ⟨n.toNat, by omega⟩ else .error .invalidArgument

/-- The bytes that `add_uchar` adds to a buffer. -/
def addUchar (u : CodePoint) : List Nat :=
  let k := u.val
  let masq := 0b111111
  if k ≥ 0x4000000 then
    [0xfc + (k >>> 30), 0x80 ||| ((k >>> 24) &&& masq), 0x80 ||| ((k >>> 18) &&& masq),
      0x80 ||| ((k >>> 12) &&& masq), 0x80 ||| ((k >>> 6) &&& masq), 0x80 ||| (k &&& masq)]
  else if k ≤ 0x7f then [k]
  else if k ≤ 0x7ff then [0xc0 ||| (k >>> 6), 0x80 ||| (k &&& masq)]
  else if k ≤ 0xffff then
    [0xe0 ||| (k >>> 12), 0x80 ||| ((k >>> 6) &&& masq), 0x80 ||| (k &&& masq)]
  else if k ≤ 0x1fffff then
    [0xf0 + (k >>> 18), 0x80 ||| ((k >>> 12) &&& masq), 0x80 ||| ((k >>> 6) &&& masq),
      0x80 ||| (k &&& masq)]
  else
    [0xf8 + (k >>> 24), 0x80 ||| ((k >>> 18) &&& masq), 0x80 ||| ((k >>> 12) &&& masq),
      0x80 ||| ((k >>> 6) &&& masq), 0x80 ||| (k &&& masq)]

def encode (points : List CodePoint) : List Nat := points.flatMap addUchar

/-- The bits of the `count` bytes behind `i`. -/
def follow (s : List Nat) (i : Int) (n : Int) (count : Nat) : Res (Int × Int) := do
  let _ ← charCode s (i + count)
  let rest := (s.drop (i.toNat + 1)).take count
  return (rest.foldl (fun (n : Int) m => (n * 64).lor (0x7f &&& m : Nat)) n, count + 1)

/-- `look` with the number of bytes that it looks at. -/
def look (s : List Nat) (i : Int) : Res (Int × Int) := do
  let n ← charCode s i
  if n < 0x80 then return (n, 1)
  else if n ≤ 0xdf then follow s i (n - 0xc0) 1
  else if n ≤ 0xef then follow s i (n - 0xe0) 2
  else if n ≤ 0xf7 then follow s i (n - 0xf0) 3
  else if n ≤ 0xfb then follow s i (n - 0xf8) 4
  else if n ≤ 0xfd then follow s i (n - 0xfc) 5
  else throw .invalidArgument

def searchHead (s : List Nat) (i : Nat) : Int :=
  match _read : s[i]? with
  | none => i
  | some n => if n < 0x80 ∨ n ≥ 0xc2 then i else searchHead s (i + 1)
termination_by s.length - i
decreasing_by
  have := (List.getElem?_eq_some_iff.mp _read).1
  omega

def next (s : List Nat) (i : Int) : Res Int := do
  let n ← charCode s i
  if n < 0x80 then return i + 1
  else if n < 0xc0 then return searchHead s (i.toNat + 1)
  else if n ≤ 0xdf then return i + 2
  else if n ≤ 0xef then return i + 3
  else if n ≤ 0xf7 then return i + 4
  else if n ≤ 0xfb then return i + 5
  else if n ≤ 0xfd then return i + 6
  else throw .invalidArgument

def searchHeadBackward (s : List Nat) (i : Int) : Res Int :=
  if i < 0 then .ok (-1)
  else do
    let n ← charCode s i
    if n < 0x80 ∨ n ≥ 0xc2 then return i else searchHeadBackward s (i - 1)
termination_by (i + 1).toNat
decreasing_by omega

def prev (s : List Nat) (i : Int) : Res Int := searchHeadBackward s (i - 1)

def nextTimes (s : List Nat) : Nat → Int → Res Int
  | 0, i => .ok i
  | n + 1, i => do nextTimes s n (← next s i)

def prevTimes (s : List Nat) : Nat → Int → Res Int
  | 0, i => .ok i
  | n + 1, i => do prevTimes s n (← prev s i)

def move (s : List Nat) (i : Int) (n : Int) : Res Int :=
  if n ≥ 0 then nextTimes s n.toNat i else prevTimes s (-n).toNat i

/-- `iter` with the code points handed to the function as a list. `look` makes its integer a code
point without a check; here one that is none is an error. -/
def iterLoop (s : List Nat) : Nat → Int → Res (List CodePoint)
  | 0, _ => .error .outOfFuel
  | fuel + 1, i =>
    if i ≥ s.length then .ok []
    else do
      let (u, _) ← look s i
      let point ← ucharOfInt u
      return point :: (← iterLoop s fuel (← next s i))

def iter (s : List Nat) : Res (List CodePoint) := iterLoop s (s.length + 1) 0

/-- The bytes of a character by its head, as `length_aux` takes them. -/
def width (n : Nat) : Res Nat :=
  if n < 0x80 then .ok 1
  else if n < 0xc0 then .error .invalidArgument
  else if n < 0xe0 then .ok 2
  else if n < 0xf0 then .ok 3
  else if n < 0xf8 then .ok 4
  else if n < 0xfc then .ok 5
  else if n < 0xfe then .ok 6
  else .error .invalidArgument

def lengthAux (s : List Nat) : Nat → Int → Nat → Res Int
  | 0, _, _ => .error .outOfFuel
  | fuel + 1, c, i =>
    match s[i]? with
    | none => .ok c
    | some n => do lengthAux s fuel (c + 1) (i + (← width n))

/-- `length`: the number of characters, which counts head bytes and looks at no others. -/
def length (s : List Nat) : Res Int := lengthAux s (s.length + 1) 0 0

end Haxe.Source.UTF8
