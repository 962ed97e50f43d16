import Haxe.Theory.BitStrings

/-!
# Codes of a power of two

`haxe.crypto.BaseCode` and `haxe.crypto.Base64`, outside of neko. An `Int` has 32 bits: the number
of bits of some bytes wraps. The texts of `Base64` are ASCII, and given by their bytes.
-/

namespace Haxe.Source.Crypto

abbrev Byte := BitVec 8

/-- An `Int` keeps the lowest 32 bits. -/
def wrap (x : Int) : Int := x.bmod 0x100000000

/-- `BaseCode`, without the table of `initTable`, which is a function of `base`. -/
structure BaseCode where
  base : List Byte
  nbits : Nat
  deriving DecidableEq, Repr

namespace BaseCode

/-- The loop of `new`. -/
def countBits (len : Nat) : Nat → Nat → Nat
  | 0, nbits => nbits
  | fuel + 1, nbits => if len > 1 <<< nbits then countBits len fuel (nbits + 1) else nbits

/-- `new`, which throws where the length is no power of two. -/
def create (base : List Byte) : Option BaseCode :=
  let len := base.length
  let nbits := countBits len len 1
  if nbits > 8 ∨ len ≠ 1 <<< nbits then none else some ⟨base, nbits⟩

end BaseCode

/-- The accumulator of a loop, with its place in the input. -/
structure Accumulator where
  buf : BitVec 32
  curbits : Nat
  pin : Nat

/-- `(1 << nbits) - 1` -/
def mask (nbits : Nat) : BitVec 32 := (1 : BitVec 32) <<< nbits - 1

section Loops

-- what is read at a place, the width of what is read, and the width of what is written
variable (digit : Nat → Option (BitVec 32)) (inBits outBits : Nat)

/-- The inner loop of `encodeBytes` and of `decodeBytes`. -/
def fill : Nat → Accumulator → Option Accumulator
  | 0, acc => if acc.curbits < outBits then none else some acc
  | fuel + 1, acc =>
    if acc.curbits < outBits then do
      let i ← digit acc.pin
      fill fuel ⟨acc.buf <<< inBits ||| i, acc.curbits + inBits, acc.pin + 1⟩
    else some acc

/-- The outer loop, which writes the given number of times. -/
def pump (emit : BitVec 32 → Option Byte) : Nat → Accumulator → Option (List Byte × Accumulator)
  | 0, acc => some ([], acc)
  | count + 1, acc => do
    let acc ← fill digit inBits outBits outBits acc
    let acc := { acc with curbits := acc.curbits - outBits }
    let byte ← emit (acc.buf.sshiftRight acc.curbits &&& mask outBits)
    let (bytes, acc) ← pump emit count acc
    return (byte :: bytes, acc)

end Loops

namespace BaseCode

/-- `base.get` -/
def get (this : BaseCode) (i : BitVec 32) : Option Byte := this.base[i.toNat]?

/-- `b.get`, as an `Int`. -/
def getByte (b : List Byte) (pin : Nat) : Option (BitVec 32) := b[pin]?.map (·.setWidth 32)

/-- `Bytes.alloc`, which fails for a negative length. -/
def alloc (length : Int) : Option Nat := if length < 0 then none else some length.toNat

def encodeBytes (this : BaseCode) (b : List Byte) : Option (List Byte) := do
  let nbits := this.nbits
  let bits := wrap (b.length * 8)
  let size := bits.tdiv nbits
  let _out ← alloc (size + if bits.tmod nbits = 0 then 0 else 1)
  let (out, acc) ← pump (getByte b) 8 nbits this.get size.toNat ⟨0, 0, 0⟩
  if acc.curbits > 0 then
    let last ← this.get (acc.buf <<< (nbits - acc.curbits) &&& mask nbits)
    return out ++ [last]
  else return out

/-- `initTable`: the last place of a byte counts. -/
def initTable (base : List Byte) (byte : Byte) : Int :=
  (base.zipIdx.foldl (fun (tbl : Byte → Int) entry => fun b =>
    if b = entry.1 then entry.2 else tbl b) fun _ => -1) byte

/-- What the table has for a byte, which throws where there is nothing. -/
def getDigit (tbl : Byte → Int) (b : List Byte) (pin : Nat) : Option (BitVec 32) := do
  let byte ← b[pin]?
  let i := tbl byte
  if i = -1 then none else some (BitVec.ofInt 32 i)

def decodeBytes (this : BaseCode) (b : List Byte) : Option (List Byte) := do
  let nbits := this.nbits
  let tbl := initTable this.base
  let size := wrap (b.length * nbits) >>> (3 : Nat)
  let size ← alloc size
  let (out, _) ← pump (getDigit tbl b) nbits 8 (fun i => some (i.setWidth 8)) size ⟨0, 0, 0⟩
  return out

end BaseCode

namespace Base64

def bytes (text : String) : List Byte := text.toList.map fun c => BitVec.ofNat 8 c.toNat

/-- `BYTES` -/
def BYTES : List Byte :=
  bytes "ABCDEFGHIJKLMNOPQRSTUVWXYZabcdefghijklmnopqrstuvwxyz0123456789+/"

/-- `URL_BYTES` -/
def URLBYTES : List Byte :=
  bytes "ABCDEFGHIJKLMNOPQRSTUVWXYZabcdefghijklmnopqrstuvwxyz0123456789-_"

/-- `"=".code` -/
def equalSign : Byte := 0x3d

section Alphabet

variable (alphabet : List Byte)

/-- The padding of the code of some bytes. -/
def pad (bytes str : List Byte) : List Byte :=
  match bytes.length % 3 with
  | 1 => str ++ [equalSign, equalSign]
  | 2 => str ++ [equalSign]
  | _ => str

/-- `encode` and `urlEncode`, by their alphabet. -/
def encodeWith (bytes : List Byte) (complement : Bool) : Option (List Byte) := do
  let code ← BaseCode.create alphabet
  let str ← code.encodeBytes bytes
  return if complement then pad bytes str else str

/-- The loop of `decode` and `urlDecode`. -/
def strip : Nat → List Byte → List Byte
  | 0, str => str
  | fuel + 1, str => if str.getLast? = some equalSign then strip fuel str.dropLast else str

def decodeWith (str : List Byte) (complement : Bool) : Option (List Byte) := do
  let code ← BaseCode.create alphabet
  code.decodeBytes (if complement then strip str.length str else str)

end Alphabet

def encode (bytes : List Byte) (complement : Bool) : Option (List Byte) :=
  encodeWith BYTES bytes complement

def decode (str : List Byte) (complement : Bool) : Option (List Byte) :=
  decodeWith BYTES str complement

def urlEncode (bytes : List Byte) (complement : Bool) : Option (List Byte) :=
  encodeWith URLBYTES bytes complement

def urlDecode (str : List Byte) (complement : Bool) : Option (List Byte) :=
  decodeWith URLBYTES str complement

end Base64

end Haxe.Source.Crypto
