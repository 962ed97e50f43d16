import Mathlib.Data.List.Basic
import Mathlib.Algebra.Ring.Nat

/-!
# The table of stack map frames

How the frames of a method are read from the bytes of a class file. A frame is described relative
to the one before it: its offset is more than one behind, and its local variables are those of
the frame before with some more or some less, unless it lists all of them.
-/

namespace Haxe.Theory.StackMapFormat

inductive VerificationType where
  | top
  | integer
  | float
  | double
  | long
  | null
  | uninitializedThis
  | object (index : Nat)
  | uninitialized (offset : Nat)
  deriving DecidableEq, Repr

/-- An entry of the table, with its `offset_delta`. -/
inductive Entry where
  | same (delta : Nat)
  | sameLocals1StackItem (delta : Nat) (item : VerificationType)
  | chop (delta count : Nat)
  | append (delta : Nat) (types : List VerificationType)
  | full (delta : Nat) (locals stack : List VerificationType)
  deriving DecidableEq, Repr

/-- What is read in front of a list of bytes, and the rest. -/
abbrev Reader (α : Type) := List Nat → Option (α × List Nat)

def readU2 : Reader Nat
  | hi :: lo :: rest => some (hi * 256 + lo, rest)
  | _ => none

def readType : Reader VerificationType
  | 0 :: rest => some (.top, rest)
  | 1 :: rest => some (.integer, rest)
  | 2 :: rest => some (.float, rest)
  | 3 :: rest => some (.double, rest)
  | 4 :: rest => some (.long, rest)
  | 5 :: rest => some (.null, rest)
  | 6 :: rest => some (.uninitializedThis, rest)
  | 7 :: rest => (readU2 rest).map fun read => (.object read.1, read.2)
  | 8 :: rest => (readU2 rest).map fun read => (.uninitialized read.1, read.2)
  | _ => none

def readTimes {α : Type} (read : Reader α) : Nat → Reader (List α)
  | 0, bytes => some ([], bytes)
  | n + 1, bytes => do
    let (first, bytes) ← read bytes
    let (others, bytes) ← readTimes read n bytes
    return (first :: others, bytes)

/-- A number of types with the types. -/
def readTypes : Reader (List VerificationType) := fun bytes => do
  let (count, bytes) ← readU2 bytes
  readTimes readType count bytes

@[grind =] def readEntry : Reader Entry
  | [] => none
  | tag :: bytes =>
    if tag < 64 then some (.same tag, bytes)
    else if tag < 128 then do
      let (item, bytes) ← readType bytes
      return (.sameLocals1StackItem (tag - 64) item, bytes)
    else if tag < 247 then none
    else do
      let (delta, bytes) ← readU2 bytes
      if tag = 247 then
        let (item, bytes) ← readType bytes
        return (.sameLocals1StackItem delta item, bytes)
      else if tag < 251 then return (.chop delta (251 - tag), bytes)
      else if tag = 251 then return (.same delta, bytes)
      else if tag < 255 then
        let (types, bytes) ← readTimes readType (tag - 251) bytes
        return (.append delta types, bytes)
      else if tag = 255 then
        let (locals, bytes) ← readTypes bytes
        let (stack, bytes) ← readTypes bytes
        return (.full delta locals stack, bytes)
      else none

def readTable : Reader (List Entry) := fun bytes => do
  let (count, bytes) ← readU2 bytes
  readTimes readEntry count bytes

/-- A frame: its offset in the code, the types of the local variables and of the operand stack. -/
structure Frame where
  offset : Nat
  locals : List VerificationType
  stack : List VerificationType
  deriving DecidableEq, Repr

/-- The frame of an entry, given the offset behind the last frame and its local variables. -/
def frame (next : Nat) (locals : List VerificationType) : Entry → Option Frame
  | .same delta => some ⟨next + delta, locals, []⟩
  | .sameLocals1StackItem delta item => some ⟨next + delta, locals, [item]⟩
  | .chop delta count =>
    if count ≤ locals.length then some ⟨next + delta, locals.take (locals.length - count), []⟩
    else none
  | .append delta types => some ⟨next + delta, locals ++ types, []⟩
  | .full delta locals stack => some ⟨next + delta, locals, stack⟩

def frames (next : Nat) (locals : List VerificationType) : List Entry → Option (List Frame)
  | [] => some []
  | entry :: entries => do
    let first ← frame next locals entry
    return first :: (← frames (first.offset + 1) first.locals entries)

/-- The frames of a table that is read to its end, behind the frame of the arguments. -/
def decode (arguments : List VerificationType) (bytes : List Nat) : Option (List Frame) := do
  let (entries, rest) ← readTable bytes
  if rest = [] then frames 0 arguments entries else none

/-- A value of two words takes two local variables, of which the second one is unusable. -/
def slotsOf : VerificationType → List VerificationType
  | .double => [.double, .top]
  | .long => [.long, .top]
  | type => [type]

/-- The local variables by their numbers. -/
def slots (locals : List VerificationType) : List VerificationType := locals.flatMap slotsOf

/-- What a local variable holds; behind the listed ones all are unusable. -/
def slot (numbered : List VerificationType) (s : Nat) : VerificationType :=
  (numbered[s]?).getD .top

/-- Some bytes are read as a value, whatever follows. -/
def Reads {α : Type} (read : Reader α) (bytes : List Nat) (a : α) : Prop :=
  ∀ rest, read (bytes ++ rest) = some (a, rest)

/-- What is written one after another is read back in order. -/
theorem reads_times {α β : Type} {read : Reader α} {write : β → Option (List Nat)} {value : β → α}
    {values : List β} {bytes : List (List Nat)} (written : values.mapM write = some bytes)
    (each : ∀ b ∈ values, ∀ bytes, write b = some bytes → Reads read bytes (value b)) :
    Reads (readTimes read values.length) bytes.flatten (values.map value) := by
  induction values generalizing bytes with
  | nil =>
    intro rest
    rw [List.mapM_nil] at written
    obtain rfl := Option.some.inj written
    rfl
  | cons b values ih =>
    intro rest
    rw [List.mapM_cons] at written
    obtain ⟨first, one, written⟩ := Option.bind_eq_some_iff.mp written
    obtain ⟨others, more, written⟩ := Option.bind_eq_some_iff.mp written
    obtain rfl := Option.some.inj written
    have here := each b List.mem_cons_self first one (others.flatten ++ rest)
    have behind := ih more (fun b' member => each b' (List.mem_cons_of_mem _ member)) rest
    rw [List.length_cons, readTimes, List.flatten_cons, List.append_assoc, here]
    simp only [bind, Option.bind, behind, List.map_cons]
    rfl

end Haxe.Theory.StackMapFormat

/-!
## Annotations of the class file

The `annotation` structure of the `RuntimeVisibleAnnotations` attribute, with element values of any
nesting, and the reader that its grammar describes.
-/

namespace Haxe.Theory.AnnotationFormat

open StackMapFormat (Reader Reads readU2 readTimes)

/-- The tags of the constants. -/
inductive ConstTag where
  | byte | char | double | float | int | long | short | boolean | string
  deriving DecidableEq, Repr

def ConstTag.ofByte (tag : Nat) : Option ConstTag :=
  if tag = 'B'.toNat then some .byte
  else if tag = 'C'.toNat then some .char
  else if tag = 'D'.toNat then some .double
  else if tag = 'F'.toNat then some .float
  else if tag = 'I'.toNat then some .int
  else if tag = 'J'.toNat then some .long
  else if tag = 'S'.toNat then some .short
  else if tag = 'Z'.toNat then some .boolean
  else if tag = 's'.toNat then some .string
  else none

mutual

/-- `annotation`: its type, and the pairs of a name and a value. -/
inductive AnnotationStructure where
  | mk (typeIndex : Nat) (pairs : List (Nat × ElementValue))

/-- `element_value` -/
inductive ElementValue where
  | constValue (tag : ConstTag) (index : Nat)
  | enumConstValue (typeName constName : Nat)
  | classInfo (index : Nat)
  | annotationValue (value : AnnotationStructure)
  | arrayValue (values : List ElementValue)

end

/-- A name and a value. -/
def readPair (readValue : Reader ElementValue) : Reader (Nat × ElementValue) := fun bytes => do
  let (name, bytes) ← readU2 bytes
  let (value, bytes) ← readValue bytes
  return ((name, value), bytes)

def readStructureWith (readValue : Reader ElementValue) : Reader AnnotationStructure :=
  fun bytes => do
    let (typeIndex, bytes) ← readU2 bytes
    let (count, bytes) ← readU2 bytes
    let (pairs, bytes) ← readTimes (readPair readValue) count bytes
    return (.mk typeIndex pairs, bytes)

/-- An element value, of at most some depth. -/
@[grind =] def readElementValue : Nat → Reader ElementValue
  | 0, _ => none
  | _ + 1, [] => none
  | depth + 1, tag :: bytes =>
    if tag = 'e'.toNat then do
      let (typeName, bytes) ← readU2 bytes
      let (constName, bytes) ← readU2 bytes
      return (.enumConstValue typeName constName, bytes)
    else if tag = 'c'.toNat then do
      let (index, bytes) ← readU2 bytes
      return (.classInfo index, bytes)
    else if tag = '@'.toNat then do
      let (value, bytes) ← readStructureWith (readElementValue depth) bytes
      return (.annotationValue value, bytes)
    else if tag = '['.toNat then do
      let (count, bytes) ← readU2 bytes
      let (values, bytes) ← readTimes (readElementValue depth) count bytes
      return (.arrayValue values, bytes)
    else do
      let const ← ConstTag.ofByte tag
      let (index, bytes) ← readU2 bytes
      return (.constValue const index, bytes)

/-- An annotation whose values have at most some depth. -/
def readStructure (depth : Nat) : Reader AnnotationStructure :=
  readStructureWith (readElementValue depth)

end Haxe.Theory.AnnotationFormat

/-!
## The constant pool of a class file

How the constants of a class file are read, and what the instructions that load a constant push.
A constant takes one index, but a long and a double take two of them. The text of a string is
given by its UTF-16 units, each in modified UTF-8.
-/

namespace Haxe.Theory.ConstantPoolFormat

open StackMapFormat (Reader Reads readU2)

/-- `cp_info` -/
inductive Info where
  | utf8 (units : List Nat)
  | integer (bits : BitVec 32)
  | float (bits : BitVec 32)
  | long (bits : BitVec 64)
  | double (bits : BitVec 64)
  | classRef (name : Nat)
  | string (text : Nat)
  | fieldref (owner nameAndType : Nat)
  | methodref (owner nameAndType : Nat)
  | interfaceMethodref (owner nameAndType : Nat)
  | nameAndType (name descriptor : Nat)
  | methodHandle (kind reference : Nat)
  | methodType (descriptor : Nat)
  | invokeDynamic (bootstrap nameAndType : Nat)
  deriving DecidableEq, Repr

/-- How many indices a constant takes. -/
@[grind =] def Info.width : Info → Nat
  | .long _ | .double _ => 2
  | _ => 1

/-- A byte behind the first one of a unit. -/
def tail (byte : Nat) : Bool := byte / 0x40 = 2

def unit2 (a b : Nat) : Nat := a % 0x20 * 0x40 + b % 0x40

def unit3 (a b c : Nat) : Nat := a % 0x10 * 0x1000 + b % 0x40 * 0x40 + c % 0x40

/-- Modified UTF-8: a unit is written as short as possible, but for the zero, which takes two
bytes. -/
def readUnits : List Nat → Option (List Nat)
  | [] => some []
  | a :: rest =>
    if 0 < a ∧ a < 0x80 then (readUnits rest).map (a :: ·)
    else match rest with
      | [] => none
      | b :: rest =>
        if a / 0x20 = 6 then
          if tail b ∧ (unit2 a b = 0 ∨ 0x80 ≤ unit2 a b) then
            (readUnits rest).map (unit2 a b :: ·)
          else none
        else match rest with
          | [] => none
          | c :: rest =>
            if a / 0x10 = 14 ∧ tail b ∧ tail c ∧ 0x800 ≤ unit3 a b c then
              (readUnits rest).map (unit3 a b c :: ·)
            else none

def readU1 : Reader Nat
  | byte :: rest => some (byte, rest)
  | [] => none

def readU4 : Reader (BitVec 32)
  | a :: b :: c :: d :: rest =>
    some (BitVec.ofNat 32 (a * 0x1000000 + b * 0x10000 + c * 0x100 + d), rest)
  | _ => none

/-- The high word comes first. -/
def readU8 : Reader (BitVec 64) := fun bytes => do
  let (high, bytes) ← readU4 bytes
  let (low, bytes) ← readU4 bytes
  return (high ++ low, bytes)

def readText : Reader (List Nat) := fun bytes => do
  let (length, bytes) ← readU2 bytes
  if length ≤ bytes.length then
    let units ← readUnits (bytes.take length)
    return (units, bytes.drop length)
  else none

/-- Two values one after another. -/
def readPair {α : Type} (first second : Reader Nat) (f : Nat → Nat → α) : Reader α :=
  fun bytes => do
    let (a, bytes) ← first bytes
    let (b, bytes) ← second bytes
    return (f a b, bytes)

def mapped {α β : Type} (read : Reader α) (f : α → β) : Reader β := fun bytes =>
  (read bytes).map fun result => (f result.1, result.2)

def readInfo : Reader Info
  | 1 :: bytes => mapped readText .utf8 bytes
  | 3 :: bytes => mapped readU4 .integer bytes
  | 4 :: bytes => mapped readU4 .float bytes
  | 5 :: bytes => mapped readU8 .long bytes
  | 6 :: bytes => mapped readU8 .double bytes
  | 7 :: bytes => mapped readU2 .classRef bytes
  | 8 :: bytes => mapped readU2 .string bytes
  | 9 :: bytes => readPair readU2 readU2 .fieldref bytes
  | 10 :: bytes => readPair readU2 readU2 .methodref bytes
  | 11 :: bytes => readPair readU2 readU2 .interfaceMethodref bytes
  | 12 :: bytes => readPair readU2 readU2 .nameAndType bytes
  | 15 :: bytes => readPair readU1 readU2 .methodHandle bytes
  | 16 :: bytes => mapped readU2 .methodType bytes
  | 18 :: bytes => readPair readU2 readU2 .invokeDynamic bytes
  | _ => none

/-- The constants that fill some indices, each with its own. -/
def readEntries : Nat → Nat → Reader (List (Nat × Info))
  | 0, _, bytes => some ([], bytes)
  | slots + 1, index, bytes => do
    let (info, bytes) ← readInfo bytes
    if info.width = 1 then
      let (entries, bytes) ← readEntries slots (index + 1) bytes
      return ((index, info) :: entries, bytes)
    else match slots with
      | 0 => none
      | slots + 1 =>
        let (entries, bytes) ← readEntries slots (index + 2) bytes
        return ((index, info) :: entries, bytes)

/-- The count in front is one more than the number of indices. -/
def readPool : Reader (List (Nat × Info)) := fun bytes => do
  let (count, bytes) ← readU2 bytes
  if count = 0 then none else readEntries (count - 1) 1 bytes

inductive Value where
  | int (bits : BitVec 32)
  | long (bits : BitVec 64)
  | float (bits : BitVec 32)
  | double (bits : BitVec 64)
  deriving DecidableEq, Repr

/-- What `ldc` loads. -/
def loaded : Info → Option Value
  | .integer bits => some (.int bits)
  | .float bits => some (.float bits)
  | _ => none

/-- What `ldc2_w` loads. -/
def loaded2 : Info → Option Value
  | .long bits => some (.long bits)
  | .double bits => some (.double bits)
  | _ => none

/-- A number of a single instruction, as its two's complement. -/
def signed (bits number : Nat) : BitVec 32 := (BitVec.ofNat bits number).signExtend 32

/-- What an instruction pushes, where it loads a number. -/
def pushed (entries : List (Nat × Info)) : List Nat → Option Value
  | [0x02] => some (.int (-1))
  | [0x03] => some (.int 0)
  | [0x04] => some (.int 1)
  | [0x05] => some (.int 2)
  | [0x06] => some (.int 3)
  | [0x07] => some (.int 4)
  | [0x08] => some (.int 5)
  | [0x09] => some (.long 0)
  | [0x0a] => some (.long 1)
  | [0x0b] => some (.float 0)
  | [0x0c] => some (.float 0x3f800000)
  | [0x0d] => some (.float 0x40000000)
  | [0x0e] => some (.double 0)
  | [0x0f] => some (.double 0x3ff0000000000000)
  | [0x10, byte] => some (.int (signed 8 byte))
  | [0x11, high, low] => some (.int (signed 16 (high * 256 + low)))
  | [0x12, index] => (entries.lookup index).bind loaded
  | [0x13, high, low] => (entries.lookup (high * 256 + low)).bind loaded
  | [0x14, high, low] => (entries.lookup (high * 256 + low)).bind loaded2
  | _ => none

section Reading

variable {α β : Type} {bytes : List Nat}

theorem reads_mapped {read : Reader α} {a : α} (f : α → β) (reads : Reads read bytes a) :
    Reads (mapped read f) bytes (f a) := by
  intro rest
  rw [mapped, reads rest, Option.map_some]

theorem reads_pair {first second : Reader Nat} {others : List Nat} {a b : Nat}
    (f : Nat → Nat → α) (front : Reads first bytes a) (behind : Reads second others b) :
    Reads (readPair first second f) (bytes ++ others) (f a b) := by
  intro rest
  rw [readPair, List.append_assoc, front (others ++ rest)]
  show (second (others ++ rest)).bind _ = _
  rw [behind rest]
  rfl

theorem reads_u8 {high low : BitVec 32} {others : List Nat} (front : Reads readU4 bytes high)
    (behind : Reads readU4 others low) : Reads readU8 (bytes ++ others) (high ++ low) := by
  intro rest
  rw [readU8, List.append_assoc, front (others ++ rest)]
  show (readU4 (others ++ rest)).bind _ = _
  rw [behind rest]
  rfl

/-- A text with its length in front. -/
theorem reads_text {length units : List Nat} (counted : Reads readU2 length bytes.length)
    (decoded : readUnits bytes = some units) : Reads readText (length ++ bytes) units := by
  intro rest
  have enough : bytes.length ≤ (bytes ++ rest).length := by
    rw [List.length_append]
    omega
  rw [readText, List.append_assoc, counted (bytes ++ rest)]
  simp only [bind, Option.bind, if_pos enough, List.take_left, List.drop_left, decoded]
  rfl

end Reading

section Units

variable {rest units : List Nat}

theorem readUnits_one {a : Nat} (positive : 0 < a) (small : a < 0x80)
    (behind : readUnits rest = some units) : readUnits (a :: rest) = some (a :: units) := by
  rw [readUnits.eq_def]
  dsimp only
  rw [if_pos ⟨positive, small⟩, behind, Option.map_some]

theorem readUnits_two {high low : Nat} (fits : high < 0x20) (low_fits : low < 0x40)
    (shortest : high * 0x40 + low = 0 ∨ 0x80 ≤ high * 0x40 + low)
    (behind : readUnits rest = some units) :
    readUnits ((0xC0 + high) :: (0x80 + low) :: rest) =
      some ((high * 0x40 + low) :: units) := by
  have value : unit2 (0xC0 + high) (0x80 + low) = high * 0x40 + low := by
    unfold unit2
    omega
  have tailed : tail (0x80 + low) = true := by
    unfold tail
    exact decide_eq_true (by omega)
  rw [readUnits.eq_def]
  dsimp only
  rw [if_neg (by omega), if_pos (by omega), value, if_pos ⟨tailed, shortest⟩, behind,
    Option.map_some]

theorem readUnits_three {high middle low : Nat} (fits : high < 0x10) (middle_fits : middle < 0x40)
    (low_fits : low < 0x40) (shortest : 0x800 ≤ high * 0x1000 + middle * 0x40 + low)
    (behind : readUnits rest = some units) :
    readUnits ((0xE0 + high) :: (0x80 + middle) :: (0x80 + low) :: rest) =
      some ((high * 0x1000 + middle * 0x40 + low) :: units) := by
  have value : unit3 (0xE0 + high) (0x80 + middle) (0x80 + low) =
      high * 0x1000 + middle * 0x40 + low := by
    unfold unit3
    omega
  have tailed (n : Nat) (small : n < 0x40) : tail (0x80 + n) = true := by
    unfold tail
    exact decide_eq_true (by omega)
  rw [readUnits.eq_def]
  dsimp only
  rw [if_neg (by omega), if_neg (by omega), value,
    if_pos ⟨by omega, tailed middle middle_fits, tailed low low_fits, shortest⟩, behind,
    Option.map_some]

end Units

theorem Info.width_cases (info : Info) : info.width = 1 ∨ info.width = 2 := by
  cases info <;> simp [width]

section Numbered

variable {α : Type} (width : α → Nat)

/-- Values with their indices, from an index on. -/
@[grind =] def numbered (index : Nat) : List α → List (Nat × α)
  | [] => []
  | a :: as => (index, a) :: numbered (index + width a) as

/-- How many indices some values take. -/
def slots (as : List α) : Nat := (as.map width).sum

variable {width}

theorem numbered_append (index : Nat) (as more : List α) :
    numbered width index (as ++ more) =
      numbered width index as ++ numbered width (index + slots width as) more := by
  induction as generalizing index with
  | nil => rfl
  | cons a as ih =>
    rw [List.cons_append, numbered, numbered, List.cons_append, ih, slots, slots, List.map_cons,
      List.sum_cons, Nat.add_assoc]

theorem numbered_map {β : Type} {wide : β → Nat} {f : α → β} (same : ∀ a, wide (f a) = width a)
    (index : Nat) (as : List α) :
    numbered wide index (as.map f) = (numbered width index as).map (Prod.map id f) := by
  induction as generalizing index with
  | nil => rfl
  | cons a as ih =>
    rw [List.map_cons, numbered, numbered, List.map_cons, ih, same]
    rfl

theorem slots_map {β : Type} {wide : β → Nat} {f : α → β} (same : ∀ a, wide (f a) = width a)
    (as : List α) : slots wide (as.map f) = slots width as := by
  unfold slots
  rw [List.map_map]
  exact congrArg List.sum (List.map_congr_left fun a _ => same a)

theorem slots_append (as more : List α) :
    slots width (as ++ more) = slots width as + slots width more := by
  unfold slots
  rw [List.map_append, List.sum_append]

variable {index i : Nat} {as : List α} {a : α}

theorem mem_of_numbered (member : (i, a) ∈ numbered width index as) : a ∈ as := by
  induction as generalizing index with
  | nil => cases member
  | cons first as ih =>
    rcases List.mem_cons.mp member with here | behind
    · exact List.mem_cons.mpr (.inl (Prod.mk.inj here).2)
    · exact List.mem_cons.mpr (.inr (ih behind))

theorem exists_numbered (index : Nat) (member : a ∈ as) :
    ∃ i, (i, a) ∈ numbered width index as := by
  induction as generalizing index with
  | nil => cases member
  | cons first as ih =>
    rcases List.mem_cons.mp member with rfl | behind
    · exact ⟨index, List.mem_cons_self⟩
    · obtain ⟨i, found⟩ := ih (index + width first) behind
      exact ⟨i, List.mem_cons_of_mem _ found⟩

/-- Values that are told apart by a key have an index each. -/
theorem index_unique {κ : Type} {key : α → κ} {j : Nat} {b : α} (distinct : (as.map key).Nodup)
    (first : (i, a) ∈ numbered width index as) (second : (j, b) ∈ numbered width index as)
    (equal : key a = key b) : i = j ∧ a = b := by
  induction as generalizing index with
  | nil => cases first
  | cons c as ih =>
    obtain ⟨fresh, others⟩ := List.nodup_cons.mp distinct
    rcases List.mem_cons.mp first with here | behind <;>
      rcases List.mem_cons.mp second with here' | behind'
    · obtain ⟨rfl, rfl⟩ := Prod.mk.inj here
      obtain ⟨rfl, rfl⟩ := Prod.mk.inj here'
      exact ⟨rfl, rfl⟩
    · obtain ⟨rfl, rfl⟩ := Prod.mk.inj here
      rw [equal] at fresh
      exact absurd (List.mem_map_of_mem (mem_of_numbered behind')) fresh
    · obtain ⟨rfl, rfl⟩ := Prod.mk.inj here'
      rw [← equal] at fresh
      exact absurd (List.mem_map_of_mem (mem_of_numbered behind)) fresh
    · exact ih others behind behind'

section Positive

variable (positive : ∀ a, 0 < width a)
include positive

theorem index_bounds (member : (i, a) ∈ numbered width index as) :
    index ≤ i ∧ i < index + slots width as := by
  induction as generalizing index with
  | nil => cases member
  | cons first as ih =>
    have wide := positive first
    rw [slots, List.map_cons, List.sum_cons]
    rcases List.mem_cons.mp member with here | behind
    · obtain ⟨rfl, rfl⟩ := Prod.mk.inj here
      omega
    · have between := ih behind
      unfold slots at between
      omega

/-- Every value is found at its index. -/
theorem lookup_numbered (member : (i, a) ∈ numbered width index as) :
    (numbered width index as).lookup i = some a := by
  induction as generalizing index with
  | nil => cases member
  | cons first as ih =>
    rw [numbered]
    rcases List.mem_cons.mp member with here | behind
    · obtain ⟨rfl, rfl⟩ := Prod.mk.inj here
      exact List.lookup_cons_self
    · have beyond := index_bounds positive behind
      have wide := positive first
      have apart : (i == index) = false := beq_false_of_ne (by omega)
      rw [List.lookup_cons, apart]
      exact ih behind

end Positive

end Numbered

/-- What is written one after another fills the indices in order. -/
theorem reads_entries {β : Type} {write : β → Option (List Nat)} {value : β → Info}
    {values : List β} {bytes : List (List Nat)} (index : Nat)
    (written : values.mapM write = some bytes)
    (each : ∀ b ∈ values, ∀ bytes, write b = some bytes → Reads readInfo bytes (value b)) :
    Reads (readEntries (slots Info.width (values.map value)) index) bytes.flatten
      (numbered Info.width index (values.map value)) := by
  induction values generalizing bytes index with
  | nil =>
    intro rest
    rw [List.mapM_nil] at written
    obtain rfl := Option.some.inj written
    rfl
  | cons b values ih =>
    intro rest
    rw [List.mapM_cons] at written
    obtain ⟨first, one, written⟩ := Option.bind_eq_some_iff.mp written
    obtain ⟨others, more, written⟩ := Option.bind_eq_some_iff.mp written
    obtain rfl := Option.some.inj written
    have here := each b List.mem_cons_self first one (others.flatten ++ rest)
    have behind := ih (index + (value b).width) more
      (fun b' member => each b' (List.mem_cons_of_mem _ member)) rest
    rw [slots, List.map_cons, List.map_cons, List.sum_cons, List.flatten_cons, List.append_assoc,
      numbered]
    unfold slots at behind
    rcases (value b).width_cases with narrow | wide
    · rw [narrow] at behind ⊢
      rw [Nat.add_comm 1, readEntries, here]
      simp only [bind, Option.bind, if_pos narrow, behind]
      rfl
    · rw [wide] at behind ⊢
      have apart : (value b).width ≠ 1 := by omega
      rw [Nat.add_comm 2, readEntries, here]
      simp only [bind, Option.bind, if_neg apart, behind]
      rfl

end Haxe.Theory.ConstantPoolFormat
