import Haxe.Source.Extlib.UTF8

/-!
# Strings of the macro interpreter

`macro/eval/evalString.ml`. A function that uses the cached offsets of a string returns the
string as it leaves it, also where it fails.
-/

namespace Haxe.Source.EvalString

open UTF8

/-- `soffsets` are pairs of a character and its byte offset. -/
structure VString where
  sstring : List Nat
  slength : Int
  soffsets : List (Int × Int)
  deriving DecidableEq, Repr

def createAscii (s : List Nat) : VString := ⟨s, s.length, []⟩

def createWithLength (s : List Nat) (length : Int) : VString := ⟨s, length, []⟩

/-- `create_unknown_vstring` -/
def createUnknownVstring (s : List Nat) : VString :=
  createWithLength s (match UTF8.length s with
    | .ok length => length
    | .error _ => s.length)

def emptyString : VString := createAscii []

def concat (s1 s2 : VString) : VString :=
  createWithLength (s1.sstring ++ s2.sstring) (s1.slength + s2.slength)

/-- `join`; the first string comes without a separator. -/
def join (sep : VString) (sl : List VString) : VString :=
  let joined := sl.foldl (fun (first, buf, length) s =>
    let length := if first then 0 else length + sep.slength
    let length := length + s.slength
    let buf := if first then buf else buf ++ sep.sstring
    (false, buf ++ s.sstring, length)) ((true, [], 0) : Bool × List Nat × Int)
  createWithLength joined.2.1 joined.2.2

/-- `get_b_offset`; for a negative number of characters it goes on until the text ends. -/
def getBOffset (s : List Nat) : Nat → Int → Int → Res Int
  | 0, _, _ => .error .outOfFuel
  | fuel + 1, cLen, bOffset =>
    if cLen = 0 then .ok bOffset
    else do getBOffset s fuel (cLen - 1) (← next s bOffset)

/-- The steps from a cached offset: forwards, from the start, or backwards. -/
def stepsFrom (s : List Nat) (cIndex diff bOffset : Int) : Res Int :=
  if diff > 0 then getBOffset s (s.length + 2) diff bOffset
  else if cIndex + diff < 0 then getBOffset s (s.length + 2) cIndex 0
  else prevTimes s (-diff).toNat bOffset

/-- The offset from the only cached pair. -/
def fromPair (s : List Nat) (cIndex cIndex1 bOffset1 : Int) : Res Int :=
  let diff := cIndex - cIndex1
  if diff = 0 then .ok bOffset1
  else if diff = 1 then next s bOffset1
  else if diff = -1 then prev s bOffset1
  else stepsFrom s cIndex diff bOffset1

/-- `get_offset'`: the offset, the place of its pair, and all pairs. -/
@[grind =] def getOffset' (s : VString) (cIndex : Int) : Res (Int × Nat × List (Int × Int)) :=
  match s.soffsets with
  | [] => do
    let bOffset ← getBOffset s.sstring (s.sstring.length + 2) cIndex 0
    return (bOffset, 0, [(cIndex, bOffset)])
  | [(cIndex1, bOffset1)] => do
    let bOffset ← fromPair s.sstring cIndex cIndex1 bOffset1
    let diff := cIndex - cIndex1
    if diff > 20 ∨ diff < -20 then
      return (bOffset, 0, [(cIndex, bOffset), (cIndex1, bOffset1)])
    else return (bOffset, 0, s.soffsets)
  | [(cIndex1, bOffset1), (cIndex2, bOffset2)] => do
    let diff1 := cIndex - cIndex1
    let diff2 := cIndex - cIndex2
    if diff1 = 0 then return (bOffset1, 0, s.soffsets)
    else if diff2 = 0 then return (bOffset2, 1, s.soffsets)
    else if diff1 = 1 then return (← next s.sstring bOffset1, 0, s.soffsets)
    else if diff2 = 1 then return (← next s.sstring bOffset2, 1, s.soffsets)
    else if diff1 = -1 then return (← prev s.sstring bOffset1, 0, s.soffsets)
    else if diff2 = -1 then return (← prev s.sstring bOffset2, 1, s.soffsets)
    else if diff1.natAbs > diff2.natAbs then
      return (← stepsFrom s.sstring cIndex diff2 bOffset2, 1, s.soffsets)
    else return (← stepsFrom s.sstring cIndex diff1 bOffset1, 0, s.soffsets)
  | _ => .error .die

@[grind =] def getOffset (s : VString) (cIndex : Int) : Res Int × VString :=
  match getOffset' s cIndex with
  | .error e => (.error e, s)
  | .ok (bOffset, r, soffsets) =>
    (.ok bOffset, { s with soffsets := soffsets.set r (cIndex, bOffset) })

def charAt (s : VString) (cIndex : Int) : Res Int × VString :=
  match getOffset' s cIndex with
  | .error e => (.error e, s)
  | .ok (bOffset, r, soffsets) =>
    match look s.sstring bOffset with
    | .error e => (.error e, { s with soffsets := soffsets })
    | .ok (char, diff) =>
      (.ok char, { s with soffsets := soffsets.set r (cIndex + 1, bOffset + diff) })

def stringOfCharCode (i : Int) : Res (List Nat) := do return addUchar (← ucharOfInt i)

def fromCharCode (i : Int) : Res VString := do
  return createWithLength (← stringOfCharCode i) 1

inductive ScanResult where
  | scanHit
  | scanAscii
  | scanOther
  deriving DecidableEq, Repr

/-- `String.unsafe_get` -/
@[grind =] def unsafeGet (s : List Nat) (i : Int) : Res Nat :=
  if 0 ≤ i then
    match s[i.toNat]? with
    | some n => .ok n
    | none => .error .outsideString
  else .error .outsideString

/-- `scan`, with the bytes of the searched string that are still to be compared. -/
@[grind =] def scan (sThis : List Nat) (bIndex : Int) : List Nat → Res ScanResult
  | [] => .error .outsideString
  | d :: sSub => do
    let c ← unsafeGet sThis bIndex
    if c = d then
      if sSub = [] then return .scanHit else scan sThis (bIndex + 1) sSub
    else if c ≤ 127 then return .scanAscii
    else return .scanOther

def forwardLoop (this sub : VString) : Nat → Int → Int → Res (Int × Int × Int)
  | 0, _, _ => .error .outOfFuel
  | fuel + 1, cIndex, bIndex =>
    if cIndex > this.slength - sub.slength ∨ bIndex ≥ this.sstring.length then .error .notFound
    else do
      match ← scan this.sstring bIndex sub.sstring with
      | .scanHit => return (cIndex, bIndex, bIndex + sub.sstring.length)
      | .scanAscii => forwardLoop this sub fuel (cIndex + 1) (bIndex + 1)
      | .scanOther => forwardLoop this sub fuel (cIndex + 1) (← next this.sstring bIndex)

@[grind =] def reverseLoop (this sub : VString) : Nat → Int → Int → Res (Int × Int × Int)
  | 0, _, _ => .error .outOfFuel
  | fuel + 1, cIndex, bIndex =>
    if cIndex > this.slength - sub.slength ∨ bIndex < 0 then .error .notFound
    else do
      match ← scan this.sstring bIndex sub.sstring with
      | .scanHit => return (cIndex, bIndex, bIndex + sub.sstring.length)
      | _ => reverseLoop this sub fuel (cIndex - 1) (← prev this.sstring bIndex)

/-- `find_substring`. Every round of a loop moves by a byte at least. -/
def findSubstring (this sub : VString) (reverse : Bool) (cIndex bIndex : Int) :
    Res (Int × Int × Int) :=
  if reverse then reverseLoop this sub (this.sstring.length + 2) cIndex bIndex
  else forwardLoop this sub (this.sstring.length + 2) cIndex bIndex

/-- `String.sub` -/
def stringSub (s : List Nat) (pos len : Int) : Res (List Nat) :=
  if 0 ≤ pos ∧ 0 ≤ len ∧ pos + len ≤ s.length then .ok ((s.drop pos.toNat).take len.toNat)
  else .error .invalidArgument

def substr (this : VString) (cIndex cLength : Int) : Res VString × VString :=
  if cLength < 0 then (.ok (createWithLength [] 0), this)
  else
    let got := getOffset this cIndex
    (do
      let bOffset1 ← got.1
      let bOffset2 ← move this.sstring bOffset1 cLength
      return createWithLength (← stringSub this.sstring bOffset1 (bOffset2 - bOffset1)) cLength,
      got.2)

structure VStringBuffer where
  bbuffer : List Nat
  blength : Int
  deriving DecidableEq, Repr

namespace VStringBuffer

def create : VStringBuffer := ⟨[], 0⟩

def addString (this : VStringBuffer) (s : VString) : VStringBuffer :=
  ⟨this.bbuffer ++ s.sstring, this.blength + s.slength⟩

def addSubstring (this : VStringBuffer) (s : VString) (bPos bLen cLen : Int) :
    Res VStringBuffer := do
  return ⟨this.bbuffer ++ (← stringSub s.sstring bPos bLen), this.blength + cLen⟩

def contents (this : VStringBuffer) : VString := createWithLength this.bbuffer this.blength

end VStringBuffer

end Haxe.Source.EvalString

/-!
## String functions of the macro interpreter

The modules `StdString`, `StdStringBuf` and `StdStringTools` of `macro/eval/evalStdLib.ml`. An
argument that may be absent is an option.
-/

namespace Haxe.Source.StdString

open UTF8 EvalString

def charAt (this : VString) (i : Int) : Res VString × VString :=
  if i < 0 ∨ i ≥ this.slength then (.ok emptyString, this)
  else
    let got := EvalString.charAt this i
    (got.1 >>= fromCharCode, got.2)

def charCodeAt (this : VString) (i : Int) : Res (Option Int) × VString :=
  if i < 0 ∨ i ≥ this.slength then (.ok none, this)
  else
    let got := EvalString.charAt this i
    (got.1 >>= fun char => return some char, got.2)

/-- The character index of a search, or -1 for `Not_found`. -/
def orMinusOne (found : Res (Int × Int × Int)) : Res Int :=
  match found with
  | .ok (offset, _, _) => .ok offset
  | .error .notFound => .ok (-1)
  | .error e => .error e

def indexOf (this str : VString) (startIndex : Option Int) : Res Int × VString :=
  let i := startIndex.getD 0
  if str.slength = 0 then (.ok (max 0 (min i this.slength)), this)
  else if i ≥ this.slength then (orMinusOne (.error .notFound), this)
  else
    let i := if i < 0 then max (this.slength + i) 0 else i
    let got := getOffset this i
    (orMinusOne (got.1 >>= fun b => findSubstring this str false i b), got.2)

def lastIndexOf (this str : VString) (startIndex : Option Int) : Res Int × VString :=
  if str.slength = 0 then
    let i := startIndex.getD this.slength
    (.ok (max 0 (min i this.slength)), this)
  else
    let i := startIndex.getD (this.slength - str.slength)
    if i < 0 then (orMinusOne (.error .notFound), this)
    else
      let i := if i ≥ this.slength - str.slength then this.slength - str.slength else i
      let got := getOffset this i
      (orMinusOne (got.1 >>= fun b => findSubstring this str true i b), got.2)

/-- `encode_range` of `split`. -/
def encodeRange (this : VString) (pos length clength : Int) : Res VString := do
  return createWithLength (← stringSub this.sstring pos length) clength

def splitLoop (this delimiter : VString) : Nat → Int → Int → Res (List VString)
  | 0, _, _ => .error .outOfFuel
  | fuel + 1, cIndex, bIndex =>
    match findSubstring this delimiter false cIndex bIndex with
    | .ok (cOffset, bOffset, next) => do
      let piece ← encodeRange this bIndex (bOffset - bIndex) (cOffset - cIndex)
      return piece :: (← splitLoop this delimiter fuel (cOffset + delimiter.slength) next)
    | .error .notFound => do
      return [← encodeRange this bIndex (this.sstring.length - bIndex) (this.slength - cIndex)]
    | .error e => .error e

def split (this delimiter : VString) : Res (List VString) :=
  if delimiter.sstring.length = 0 then do
    return (← iter this.sstring).map fun uc => createWithLength (addUchar uc) 1
  else if delimiter.sstring.length > this.sstring.length then do
    return [← encodeRange this 0 this.sstring.length this.slength]
  else splitLoop this delimiter (this.sstring.length + 1) 0 0

def substr (this : VString) (cPos : Int) (len : Option Int) : Res VString × VString :=
  let clThis := this.slength
  if cPos ≥ clThis then (.ok emptyString, this)
  else
    let cPos := if cPos < 0 then
        let cPos := this.slength + cPos
        if cPos < 0 then 0 else cPos
      else cPos
    let cLen := len.getD (clThis - cPos)
    let cLen := if cLen < 0 then clThis + cLen - cPos
      else if cLen > clThis - cPos then clThis - cPos
      else cLen
    EvalString.substr this cPos cLen

def substring (this : VString) (cFirst : Int) (endIndex : Option Int) : Res VString × VString :=
  let clThis := this.slength
  let cLast := endIndex.getD clThis
  let cFirst := if cFirst < 0 then 0 else cFirst
  let cLast := if cLast < 0 then 0 else cLast
  let ordered := if cFirst > cLast then (cLast, cFirst) else (cFirst, cLast)
  let cFirst := ordered.1
  let cLast := if ordered.2 > clThis then clThis else ordered.2
  if cFirst > clThis ∨ cFirst = cLast then (.ok emptyString, this)
  else
    let got := getOffset this cFirst
    let cLen := cLast - cFirst
    (do
      let bOffset1 ← got.1
      let bOffset2 ← if cLast = clThis then pure (this.sstring.length : Int)
        else move this.sstring bOffset1 cLen
      let bLen := bOffset2 - bOffset1
      return createWithLength (← stringSub this.sstring bOffset1 bLen) cLen,
      got.2)

/-! ## StringBuf -/

/-- What `add` is given: a string, or another value, of which `value_string` gives the text. -/
inductive Added where
  | string (s : VString)
  | other (printed : List Nat)
  deriving DecidableEq, Repr

def add (this : VStringBuffer) : Added → VStringBuffer
  | .string s => this.addString s
  | .other printed => this.addString (createAscii printed)

def addChar (this : VStringBuffer) (i : Int) : Res VStringBuffer := do
  return ⟨this.bbuffer ++ (← stringOfCharCode i), this.blength + 1⟩

def addSub (this : VStringBuffer) (s : VString) (cPos : Int) (len : Option Int) :
    Res VStringBuffer × VString :=
  let cLen := len.getD (s.slength - cPos)
  if cLen > 0 then
    let got := getOffset s cPos
    (do
      let bOffset1 ← got.1
      let bOffset2 ← move s.sstring bOffset1 cLen
      this.addSubstring s bOffset1 (bOffset2 - bOffset1) cLen,
      got.2)
  else (.ok this, s)

/-! ## StringTools -/

/-- The loop of `replace`: the buffer, and how many pieces were replaced. -/
def replaceLoop (s sub by' : VString) : Nat → Int → Int → Res (List Nat × Int)
  | 0, _, _ => .error .outOfFuel
  | fuel + 1, cIndex, bIndex =>
    match findSubstring s sub false cIndex bIndex with
    | .ok (cOffset, bOffset, next) => do
      let kept ← stringSub s.sstring bIndex (bOffset - bIndex)
      let (rest, replaceCount) ← replaceLoop s sub by' fuel (cOffset + sub.slength) next
      return (kept ++ by'.sstring ++ rest, replaceCount + 1)
    | .error .notFound => do
      return (← stringSub s.sstring bIndex (s.sstring.length - bIndex), 0)
    | .error e => .error e

/-- `replace` of the empty string: `by` behind every character but the last one. -/
def interleave (s by' : VString) (points : List CodePoint) : List Nat × Int :=
  points.foldl (fun (buf, replaceCount) uc =>
    let buf := buf ++ addUchar uc
    if replaceCount ≠ s.slength - 1 then (buf ++ by'.sstring, replaceCount + 1)
    else (buf, replaceCount)) (([], 0) : List Nat × Int)

def replace (s sub by' : VString) : Res VString :=
  let create := fun (replaced : List Nat × Int) =>
    createWithLength replaced.1
      (s.slength + by'.slength * replaced.2 - sub.slength * replaced.2)
  if sub.slength = 0 then
    if by'.slength = 0 then .ok s
    else do return create (interleave s by' (← iter s.sstring))
  else do return create (← replaceLoop s sub by' (s.sstring.length + 1) 0 0)

/-- `decode` of `urlDecode`: the value of a hexadecimal digit. -/
def hexDigit (c : Nat) : Option Nat :=
  if 0x30 ≤ c ∧ c ≤ 0x39 then some (c - 0x30)
  else if 0x61 ≤ c ∧ c ≤ 0x66 then some (c - 0x61 + 10)
  else if 0x41 ≤ c ∧ c ≤ 0x46 then some (c - 0x41 + 10)
  else none

def decodeHex (s : List Nat) (i : Nat) : Option Nat := do
  let c1 ← hexDigit (← s[i]?)
  let c2 ← hexDigit (← s[i + 1]?)
  return (c1 <<< 4) ||| c2

/-- The byte behind a string, which is read without a check here, is never a `%`. -/
def expectHex (s : List Nat) (i : Nat) : Res Nat :=
  if s[i]? = some 0x25 then
    match decodeHex s (i + 1) with
    | some c => .ok c
    | none => .error .malformed
  else .error .malformed

def urlDecodeLoop (s : List Nat) : Nat → Nat → VStringBuffer → Res VStringBuffer
  | 0, _, _ => .error .outOfFuel
  | fuel + 1, i, b =>
    match s[i]? with
    | none => .ok b
    | some c =>
      if c = 0x25 then
        match decodeHex s (i + 1) with
        | some c =>
          if c < 0x80 then urlDecodeLoop s fuel (i + 3) (b.addString (createAscii [c]))
          else if c < 0xe0 then do
            let c2 ← expectHex s (i + 3)
            let k := ((c &&& 0x3f) <<< 6) ||| (c2 &&& 0x7f)
            urlDecodeLoop s fuel (i + 6) (b.addString (← fromCharCode k))
          else if c < 0xf0 then do
            let c2 ← expectHex s (i + 3)
            let c3 ← expectHex s (i + 6)
            let k := ((c &&& 0x1f) <<< 12) ||| ((c2 &&& 0x7f) <<< 6) ||| (c3 &&& 0x7f)
            urlDecodeLoop s fuel (i + 9) (b.addString (← fromCharCode k))
          else do
            let c2 ← expectHex s (i + 3)
            let c3 ← expectHex s (i + 6)
            let c4 ← expectHex s (i + 9)
            let k := ((c &&& 0x0f) <<< 18) ||| ((c2 &&& 0x7f) <<< 12) ||| ((c3 &&& 0x7f) <<< 6) |||
              (c4 &&& 0x7f)
            urlDecodeLoop s fuel (i + 12) (b.addString (← fromCharCode k))
        | none => urlDecodeLoop s fuel (i + 1) b
      else if c = 0x2b then urlDecodeLoop s fuel (i + 1) (b.addString (createAscii [0x20]))
      else urlDecodeLoop s fuel (i + 1) (b.addString (createAscii [c]))

def urlDecode (s : VString) : Res VString := do
  return (← urlDecodeLoop s.sstring (s.sstring.length + 1) 0 VStringBuffer.create).contents

end Haxe.Source.StdString
