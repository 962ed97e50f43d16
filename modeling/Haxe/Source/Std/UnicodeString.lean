import Haxe.Theory.Fuel
import Haxe.Theory.UnicodeForms

/-!
# Unicode strings of a target with UTF-16

`UnicodeString` over the code units of a string. Each method walks over the code points with a
native and a code point offset. The native methods of `String` are the ones of lists.
-/

namespace Haxe.Source.UnicodeString

open Haxe.Theory.FueledLoops

/-- A string by its code units. -/
abbrev Units := List Nat

/-- What the targets differ in: what `fastCodeAt` returns at the end of a string, and whether an
`Int` wraps. The former is `-1`, `0` or (on js, as `-1` here) no number at all. -/
structure Target where
  eof : Int
  eof_lt : eof < 55296
  wraps : Bool

/-- `a + b` -/
def Target.add (target : Target) (a b : Int) : Int :=
  if target.wraps then (a + b).bmod 4294967296 else a + b

def fastCodeAt (target : Target) (s : Units) (index : Nat) : Int :=
  match s[index]? with
  | some c => c
  | none => target.eof

def utf16CodePointAt (target : Target) (s : Units) (index : Nat) : Int :=
  let c := fastCodeAt target s index
  if c ≥ 55296 ∧ c ≤ 56319 then
    (((c - 55232).toNat <<< 10) ||| ((fastCodeAt target s (index + 1)) % 1024).toNat : Nat)
  else c

/-- `String.fromCharCode` -/
def fromCharCode (c : Int) : Units :=
  if c < 65536 then [c.toNat]
  else [55296 + (c.toNat - 65536) / 1024, 56320 + (c.toNat - 65536) % 1024]

/-- The native offset behind a code point. -/
def behind (c : Int) (nativeOffset : Nat) : Nat :=
  if c ≥ 65536 then nativeOffset + 1 + 1 else nativeOffset + 1

/-- The offsets of a walk over a string. -/
structure Walk where
  unicodeOffset : Nat
  nativeOffset : Nat

/-- The loop of `length`, which counts the code points of the iterator. -/
def lengthStep (target : Target) (this : Units) (walk : Walk) : Next Walk Nat :=
  if walk.nativeOffset < this.length then
    .again ⟨walk.unicodeOffset + 1,
      behind (utf16CodePointAt target this walk.nativeOffset) walk.nativeOffset⟩
  else .done walk.unicodeOffset

/-- Each iteration takes a code unit at least. -/
def get_length (target : Target) (this : Units) : Option Nat :=
  loop (lengthStep target this) (this.length + 1) ⟨0, 0⟩

/-- The loops of `charAt` and `charCodeAt`. -/
def codeStep (target : Target) (this : Units) (index : Int) (walk : Walk) :
    Next Walk (Option Int) :=
  if walk.nativeOffset < this.length then
    let c := utf16CodePointAt target this walk.nativeOffset
    if walk.unicodeOffset = index then .done (some c)
    else .again ⟨walk.unicodeOffset + 1, behind c walk.nativeOffset⟩
  else .done none

def charCodeAt (target : Target) (this : Units) (index : Int) : Option (Option Int) :=
  if index < 0 then some none else loop (codeStep target this index) (this.length + 1) ⟨0, 0⟩

def charAt (target : Target) (this : Units) (index : Int) : Option Units :=
  if index < 0 then some []
  else (loop (codeStep target this index) (this.length + 1) ⟨0, 0⟩).map fun found =>
    match found with
    | some c => fromCharCode c
    | none => []

/-- The variables of `indexOf`. -/
structure Searching where
  unicodeOffset : Nat
  nativeOffset : Nat
  matchingOffset : Nat
  result : Int

def indexOfStep (target : Target) (this str : Units) (startIndex : Int) (search : Searching) :
    Next Searching Int :=
  if search.nativeOffset ≤ this.length then
    let c := utf16CodePointAt target this search.nativeOffset
    let next := { search with
      unicodeOffset := search.unicodeOffset + 1
      nativeOffset := behind c search.nativeOffset }
    if search.unicodeOffset ≥ startIndex then
      let c2 := utf16CodePointAt target str search.matchingOffset
      if c = c2 then
        let result : Int :=
          if search.matchingOffset = 0 then search.unicodeOffset else search.result
        let matchingOffset := behind c2 search.matchingOffset
        if matchingOffset = str.length then .done result
        else .again { next with matchingOffset, result }
      else if search.matchingOffset ≠ 0 then
        .again { search with matchingOffset := 0, result := -1 }
      else .again next
    else .again next
  else .done (-1)

/-- `startIndex` of `indexOf` -/
def startOf (target : Target) (this : Units) : Option Int → Option Int
  | none => some 0
  | some startIndex =>
    if startIndex < 0 then
      (get_length target this).map fun length : Nat => target.add length startIndex
    else some startIndex

def indexOf (fuel : Nat) (target : Target) (this str : Units) (startIndex : Option Int) :
    Option Int :=
  (startOf target this startIndex).bind fun startIndex =>
    loop (indexOfStep target this str startIndex) fuel ⟨0, 0, 0, -1⟩

/-- The variables of `lastIndexOf`. -/
structure SearchingLast where
  unicodeOffset : Nat
  nativeOffset : Nat
  result : Int
  lastIndex : Int
  matchingOffset : Nat

def lastIndexOfStep (target : Target) (this str : Units) (limit : Int) (search : SearchingLast) :
    Next SearchingLast Int :=
  if search.nativeOffset < this.length ∧ search.unicodeOffset < limit then
    let c := utf16CodePointAt target this search.nativeOffset
    let c2 := utf16CodePointAt target str search.matchingOffset
    let next := { search with
      unicodeOffset := search.unicodeOffset + 1
      nativeOffset := behind c search.nativeOffset }
    if c = c2 then
      let lastIndex : Int :=
        if search.matchingOffset = 0 then search.unicodeOffset else search.lastIndex
      let matchingOffset := behind c2 search.matchingOffset
      if matchingOffset = str.length then
        .again { next with matchingOffset, result := lastIndex, lastIndex := -1 }
      else .again { next with matchingOffset, lastIndex }
    else if search.matchingOffset ≠ 0 then
      .again { search with lastIndex := -1, matchingOffset := 0 }
    else .again next
  else .done search.result

/-- `startIndex` of `lastIndexOf` -/
def lastStartOf (this : Units) : Option Int → Int
  | none => this.length
  | some startIndex => if startIndex < 0 then 0 else startIndex

def lastIndexOf (fuel : Nat) (target : Target) (this str : Units) (startIndex : Option Int) :
    Option Int :=
  (get_length target str).bind fun strUnicodeLength : Nat =>
    loop (lastIndexOfStep target this str
      (target.add (lastStartOf this startIndex) strUnicodeLength)) fuel ⟨0, 0, -1, -1, 0⟩

/-- The variables of `substr` and `substring`. -/
structure Selecting where
  unicodeOffset : Nat
  nativeOffset : Nat
  fromOffset : Option Nat
  subLength : Int

/-- `this.substr(fromOffset, len)`, or to the end. -/
def nativeSubstr (this : Units) (fromOffset : Nat) : Option Nat → Units
  | none => this.drop fromOffset
  | some len => (this.drop fromOffset).take len

/-- The loops of `substr` and `substring`, which select some code points from a position on. -/
def selectStep (target : Target) (this : Units) (pos : Int) (len : Option Int)
    (select : Selecting) : Next Selecting Units :=
  if select.nativeOffset < this.length then
    let c := utf16CodePointAt target this select.nativeOffset
    let next := { select with
      unicodeOffset := select.unicodeOffset + 1
      nativeOffset := select.nativeOffset + if c ≥ 65536 then 2 else 1 }
    if select.unicodeOffset ≥ pos then
      match len with
      | none => .done (nativeSubstr this select.nativeOffset none)
      | some len =>
        let fromOffset := select.fromOffset.getD select.nativeOffset
        let subLength := select.subLength + 1
        if subLength ≥ len then
          let lastOffset := if c < 65536 then select.nativeOffset else select.nativeOffset + 1
          .done (nativeSubstr this fromOffset (some (lastOffset - fromOffset + 1)))
        else .again { next with fromOffset := some fromOffset, subLength }
    else .again next
  else .done (match select.fromOffset with
    | none => []
    | some fromOffset => nativeSubstr this fromOffset none)

def select (target : Target) (this : Units) (pos : Int) (len : Option Int) : Option Units :=
  loop (selectStep target this pos len) (this.length + 1) ⟨0, 0, none, 0⟩

/-- A negative `pos` or `len` of `substr` -/
def fromEnd (target : Target) (this : Units) (pos : Int) : Option Int :=
  if pos < 0 then (get_length target this).map fun length : Nat => target.add length pos
  else some pos

def substr (target : Target) (this : Units) (pos : Int) (len : Option Int) : Option Units :=
  (fromEnd target this pos).bind fun pos =>
    let pos := if pos < 0 then 0 else pos
    match len with
    | none => select target this pos none
    | some len => (fromEnd target this len).bind fun len =>
      if len ≤ 0 then some [] else select target this pos (some len)

def substring (target : Target) (this : Units) (startIndex : Int) (endIndex : Option Int) :
    Option Units :=
  let startIndex := if startIndex < 0 then 0 else startIndex
  match endIndex with
  | none => select target this startIndex none
  | some endIndex =>
    let endIndex := if endIndex < 0 then 0 else endIndex
    if startIndex = endIndex then some []
    else if startIndex > endIndex then select target this endIndex (some (startIndex - endIndex))
    else select target this startIndex (some (endIndex - startIndex))

end Haxe.Source.UnicodeString

/-!
## Walks over the code points

The native offset of a walk is the one of its code point, so that the methods without a search
select code points.
-/

namespace Haxe.Source.UnicodeString

open Haxe.Theory.FueledLoops Haxe.Theory.Utf16

variable (target : Target)

theorem codePointAt {cs : List Char} {i : Nat} (inside : i < cs.length) :
    utf16CodePointAt target (encode cs) (offset cs i) = (cs[i].toNat : Int) := by
  have length := length_units cs[i]
  have first := getElem?_offset inside 0 (length_units_pos _)
  have range := toNat_lt cs[i]
  have other := not_surrogate cs[i]
  rw [Nat.add_zero] at first
  unfold utf16CodePointAt fastCodeAt
  dsimp only
  rw [first]
  by_cases small : cs[i].toNat < 65536
  · have alone : units cs[i] = [cs[i].toNat] := if_pos small
    rw [alone, List.getElem?_cons_zero]
    dsimp only
    rw [if_neg (by omega)]
  · have second := getElem?_offset inside 1 (by rw [length, if_neg small]; decide)
    have pair : units cs[i] = [55296 + (cs[i].toNat - 65536) / 1024,
      56320 + (cs[i].toNat - 65536) % 1024] := if_neg small
    rw [second, pair, List.getElem?_cons_zero, List.getElem?_cons_succ, List.getElem?_cons_zero]
    generalize cs[i].toNat = n at *
    dsimp only
    rw [if_pos (by omega)]
    have high : ((55296 + (n - 65536) / 1024 : Nat) - 55232 : Int).toNat =
        64 + (n - 65536) / 1024 := by omega
    have low : ((56320 + (n - 65536) % 1024 : Nat) % 1024 : Int).toNat = (n - 65536) % 1024 := by
      omega
    rw [high, low, ← Nat.shiftLeft_add_eq_or_of_lt (Nat.mod_lt _ (by decide : 0 < 2 ^ 10)),
      Nat.shiftLeft_eq]
    omega

theorem codePointAt_end (cs : List Char) :
    utf16CodePointAt target (encode cs) (encode cs).length = target.eof := by
  have small := target.eof_lt
  unfold utf16CodePointAt fastCodeAt
  rw [List.getElem?_eq_none (Nat.le_refl _)]
  dsimp only
  exact if_neg (by omega)

theorem behind_codePoint {cs : List Char} {i : Nat} (inside : i < cs.length) :
    behind (cs[i].toNat : Int) (offset cs i) = offset cs (i + 1) := by
  rw [offset_succ inside, length_units]
  unfold behind
  split <;> split <;> omega

theorem fromCharCode_toNat (c : Char) : fromCharCode (c.toNat : Int) = units c := by
  unfold fromCharCode units
  rw [Int.toNat_natCast]
  split <;> split <;> first | rfl | omega

/-- The offsets of a walk that stands at a code point or at the end. -/
structure At (cs : List Char) (i unicodeOffset nativeOffset : Nat) : Prop where
  within : i ≤ cs.length
  unicodeOffset : unicodeOffset = i
  nativeOffset : nativeOffset = offset cs i

theorem At.start (cs : List Char) : At cs 0 0 0 := ⟨Nat.zero_le _, rfl, rfl⟩

theorem At.next {cs : List Char} {i u n : Nat} (at_ : At cs i u n) (inside : i < cs.length) :
    utf16CodePointAt target (encode cs) n = (cs[i].toNat : Int) ∧
      At cs (i + 1) (u + 1) (behind (cs[i].toNat : Int) n) := by
  obtain ⟨-, rfl, rfl⟩ := at_
  exact ⟨codePointAt target inside, inside, rfl, behind_codePoint inside⟩

theorem At.inside_iff {cs : List Char} {i u n : Nat} (at_ : At cs i u n) :
    n < (encode cs).length ↔ i < cs.length := by
  rw [at_.nativeOffset]
  exact offset_lt_iff cs i

theorem length_le_encode (cs : List Char) : cs.length ≤ (encode cs).length := by
  induction cs with
  | nil => exact Nat.le_refl _
  | cons c cs ih =>
    have := length_units_pos c
    rw [length_encode_cons, List.length_cons]
    omega

theorem lengthStep_walks (cs : List Char) (walk : Walk)
    (at_ : ∃ i, At cs i walk.unicodeOffset walk.nativeOffset) :
    (∃ next, lengthStep target (encode cs) walk = .again next ∧
        (∃ i, At cs i next.unicodeOffset next.nativeOffset) ∧
        cs.length - next.unicodeOffset < cs.length - walk.unicodeOffset) ∨
      ∃ r, lengthStep target (encode cs) walk = .done r ∧ r = cs.length := by
  obtain ⟨i, at_⟩ := at_
  have place := at_.unicodeOffset
  unfold lengthStep
  by_cases inside : i < cs.length
  · obtain ⟨code, next⟩ := at_.next target inside
    rw [if_pos (at_.inside_iff.mpr inside), code]
    refine .inl ⟨_, rfl, ⟨_, next⟩, ?_⟩
    dsimp only
    omega
  · have within := at_.within
    rw [if_neg (mt at_.inside_iff.mp inside)]
    exact .inr ⟨_, rfl, by omega⟩

theorem get_length_encode (cs : List Char) :
    get_length target (encode cs) = some cs.length := by
  have enough : cs.length - 0 < (encode cs).length + 1 := by
    have := length_le_encode cs
    omega
  obtain ⟨r, run, rfl⟩ := loop_ends_within (s := ⟨0, 0⟩)
    (fun walk : Walk => cs.length - walk.unicodeOffset) (lengthStep_walks target cs)
    ⟨0, At.start cs⟩ enough
  exact run

theorem codeStep_walks (cs : List Char) (index : Nat) (walk : Walk)
    (at_ : ∃ i ≤ index, At cs i walk.unicodeOffset walk.nativeOffset) :
    (∃ next, codeStep target (encode cs) index walk = .again next ∧
        (∃ i ≤ index, At cs i next.unicodeOffset next.nativeOffset) ∧
        cs.length - next.unicodeOffset < cs.length - walk.unicodeOffset) ∨
      ∃ r, codeStep target (encode cs) index walk = .done r ∧
        r = cs[index]?.map fun c => (c.toNat : Int) := by
  obtain ⟨i, upTo, at_⟩ := at_
  have place := at_.unicodeOffset
  unfold codeStep
  by_cases inside : i < cs.length
  · obtain ⟨code, next⟩ := at_.next target inside
    rw [if_pos (at_.inside_iff.mpr inside), code]
    dsimp only
    by_cases here : i = index
    · subst here
      rw [if_pos (by rw [place])]
      refine .inr ⟨_, rfl, ?_⟩
      rw [List.getElem?_eq_getElem inside]
      rfl
    · rw [if_neg (by omega)]
      refine .inl ⟨_, rfl, ⟨i + 1, by omega, next⟩, ?_⟩
      dsimp only
      omega
  · rw [if_neg (mt at_.inside_iff.mp inside)]
    refine .inr ⟨_, rfl, ?_⟩
    rw [List.getElem?_eq_none (by omega)]
    rfl

theorem codeStep_ends (cs : List Char) (index : Nat) :
    loop (codeStep target (encode cs) index) ((encode cs).length + 1) ⟨0, 0⟩ =
      some (cs[index]?.map fun c => (c.toNat : Int)) := by
  have enough : cs.length - 0 < (encode cs).length + 1 := by
    have := length_le_encode cs
    omega
  obtain ⟨r, run, rfl⟩ := loop_ends_within (s := ⟨0, 0⟩)
    (fun walk : Walk => cs.length - walk.unicodeOffset) (codeStep_walks target cs index)
    ⟨0, Nat.zero_le _, At.start cs⟩ enough
  exact run

theorem charCodeAt_encode (cs : List Char) (index : Int) :
    charCodeAt target (encode cs) index =
      some (if index < 0 then none else cs[index.toNat]?.map fun c => (c.toNat : Int)) := by
  unfold charCodeAt
  split
  · rfl
  · rename_i inside
    obtain ⟨i, rfl⟩ := Int.eq_ofNat_of_zero_le (Int.not_lt.mp inside)
    exact codeStep_ends target cs i

theorem charAt_encode (cs : List Char) (index : Int) :
    charAt target (encode cs) index =
      some (if index < 0 then [] else encode (cs[index.toNat]?).toList) := by
  unfold charAt
  split
  · rfl
  · rename_i inside
    obtain ⟨i, rfl⟩ := Int.eq_ofNat_of_zero_le (Int.not_lt.mp inside)
    have run := codeStep_ends target cs i
    rw [run, Int.toNat_natCast]
    cases cs[i]? with
    | none => rfl
    | some c =>
      rw [Option.map_some, Option.map_some, Option.toList_some, Theory.Utf16.encode_cons]
      dsimp only
      rw [fromCharCode_toNat]
      exact congrArg some (List.append_nil _).symm

/-- The code points from a position on, all of them or some. -/
def selected (cs : List Char) (pos : Nat) : Option Nat → List Char
  | none => cs.drop pos
  | some len => (cs.drop pos).take len

/-- Where the loop of `substr` and `substring` stands. -/
structure SelectingAt (cs : List Char) (pos : Nat) (len : Option Nat) (i : Nat)
    (select : Selecting) : Prop where
  at_ : At cs i select.unicodeOffset select.nativeOffset
  before : i ≤ pos → select.fromOffset = none ∧ select.subLength = 0
  after : pos < i → ∃ l, len = some l ∧ i - pos < l ∧
    select.fromOffset = some (offset cs pos) ∧ select.subLength = (i - pos : Nat)

theorem offset_mono (cs : List Char) {i j : Nat} (order : i ≤ j) : offset cs i ≤ offset cs j := by
  unfold offset
  rw [← Nat.add_sub_of_le order, List.take_add, encode_append, List.length_append]
  exact Nat.le_add_right ..

theorem selectStep_walks (cs : List Char) (pos : Nat) (len : Option Nat)
    (positive : ∀ l, len = some l → 0 < l) (select : Selecting)
    (state : ∃ i, SelectingAt cs pos len i select) :
    (∃ next, selectStep target (encode cs) pos (len.map Int.ofNat) select = .again next ∧
        (∃ i, SelectingAt cs pos len i next) ∧
        cs.length - next.unicodeOffset < cs.length - select.unicodeOffset) ∨
      ∃ r, selectStep target (encode cs) pos (len.map Int.ofNat) select = .done r ∧
        r = encode (selected cs pos len) := by
  obtain ⟨i, at_, before, after⟩ := state
  have place := at_.unicodeOffset
  have native := at_.nativeOffset
  unfold selectStep
  by_cases inside : i < cs.length
  · obtain ⟨code, next⟩ := at_.next target inside
    have same : select.nativeOffset + (if (cs[i].toNat : Int) ≥ 65536 then 2 else 1) =
        behind (cs[i].toNat : Int) select.nativeOffset := by
      unfold behind
      split <;> rfl
    rw [if_pos (at_.inside_iff.mpr inside), code]
    dsimp only
    rw [same]
    by_cases reached : pos ≤ i
    · rw [if_pos (by omega)]
      cases len with
      | none =>
        have here : i = pos := by
          by_contra other
          obtain ⟨l, none_, -⟩ := after (by omega)
          cases none_
        refine .inr ⟨_, rfl, ?_⟩
        rw [native, here]
        exact drop_offset cs pos
      | some l =>
        have from_ : select.fromOffset.getD select.nativeOffset = offset cs pos ∧
            select.subLength = (i - pos : Nat) ∧ i - pos < l := by
          by_cases here : i = pos
          · obtain ⟨fresh, zero⟩ := before (by omega)
            rw [fresh, zero, native, here, Nat.sub_self]
            exact ⟨rfl, rfl, positive l rfl⟩
          · obtain ⟨l', same, less, known, count⟩ := after (by omega)
            obtain rfl := Option.some.inj same
            rw [known]
            exact ⟨rfl, count, less⟩
        obtain ⟨from_, count, less⟩ := from_
        rw [from_, count]
        dsimp only [Option.map_some]
        by_cases last : i + 1 = pos + l
        · rw [if_pos (by simp only [Int.ofNat_eq_natCast]; omega)]
          refine .inr ⟨_, rfl, ?_⟩
          have order := offset_mono cs reached
          have ends : (if (cs[i].toNat : Int) < 65536 then select.nativeOffset
              else select.nativeOffset + 1) - offset cs pos + 1 =
              offset cs (i + 1) - offset cs pos := by
            rw [native, offset_succ inside, length_units]
            split <;> split <;> omega
          rw [ends]
          have selected := take_drop_offset cs (Nat.le_succ_of_le reached)
          rw [show i + 1 - pos = l by omega] at selected
          exact selected
        · rw [if_neg (by simp only [Int.ofNat_eq_natCast]; omega)]
          refine .inl ⟨_, rfl, ⟨i + 1, next, by omega, fun _ => ⟨l, rfl, by omega, rfl, ?_⟩⟩, ?_⟩
          · dsimp only
            omega
          · dsimp only
            omega
    · rw [if_neg (by omega)]
      obtain ⟨fresh, zero⟩ := before (by omega)
      refine .inl ⟨_, rfl, ⟨i + 1, next, fun _ => ⟨fresh, zero⟩, fun _ => by omega⟩, ?_⟩
      dsimp only
      omega
  · have within := at_.within
    rw [if_neg (mt at_.inside_iff.mp inside)]
    refine .inr ⟨_, rfl, ?_⟩
    by_cases reached : i ≤ pos
    · have nothing : cs.drop pos = [] := List.drop_of_length_le (by omega)
      rw [(before reached).1]
      unfold selected
      rw [nothing]
      cases len with
      | none => rfl
      | some l =>
        dsimp only
        rw [List.take_nil]
        rfl
    · obtain ⟨l, rfl, less, known, -⟩ := after (by omega)
      rw [known]
      have all : (cs.drop pos).take l = cs.drop pos :=
        List.take_of_length_le (by rw [List.length_drop]; omega)
      unfold selected
      dsimp only
      rw [all]
      exact drop_offset cs pos

theorem select_encode (cs : List Char) (pos : Nat) (len : Option Nat)
    (positive : ∀ l, len = some l → 0 < l) :
    select target (encode cs) pos (len.map Int.ofNat) = some (encode (selected cs pos len)) := by
  have enough : cs.length - 0 < (encode cs).length + 1 := by
    have := length_le_encode cs
    omega
  obtain ⟨r, run, rfl⟩ := loop_ends_within (s := ⟨0, 0, none, 0⟩)
    (fun select : Selecting => cs.length - select.unicodeOffset)
    (selectStep_walks target cs pos len positive)
    ⟨0, At.start cs, fun _ => ⟨rfl, rfl⟩, fun behind => absurd behind (Nat.not_lt_zero _)⟩ enough
  exact run

/-- A position from the end, if it is negative. -/
def normalised (length : Nat) (pos : Int) : Nat :=
  if pos < 0 then (length + pos).toNat else pos.toNat

/-- The documentation of `substr`. -/
def substrSpec (cs : List Char) (pos : Int) (len : Option Int) : List Char :=
  selected cs (normalised cs.length pos) (len.map Int.toNat)

/-- The documentation of `substring`. -/
def substringSpec (cs : List Char) (startIndex : Int) : Option Int → List Char
  | none => selected cs startIndex.toNat none
  | some endIndex =>
    selected cs (min startIndex.toNat endIndex.toNat)
      (some (max startIndex.toNat endIndex.toNat - min startIndex.toNat endIndex.toNat))

/-- Sums that an `Int` holds do not wrap. -/
theorem add_eq {a b : Int} (low : -2147483648 ≤ a + b) (high : a + b < 2147483648) :
    target.add a b = a + b := by
  unfold Target.add
  split
  · exact Int.bmod_eq_of_le (by omega) (by omega)
  · rfl

theorem fromEnd_encode {cs : List Char} (short : cs.length < 2147483648) {pos : Int}
    (range : -2147483648 ≤ pos) :
    fromEnd target (encode cs) pos = some (if pos < 0 then cs.length + pos else pos) := by
  unfold fromEnd
  rw [get_length_encode]
  split
  · rw [Option.map_some, add_eq target (by omega) (by omega)]
  · rfl

theorem substr_encode {cs : List Char} (short : cs.length < 2147483648) {pos : Int}
    (range : -2147483648 ≤ pos) {len : Option Int} (positive : ∀ l, len = some l → 0 ≤ l) :
    substr target (encode cs) pos len = some (encode (substrSpec cs pos len)) := by
  have clamped : (if (if pos < 0 then cs.length + pos else pos) < 0 then 0
      else if pos < 0 then cs.length + pos else pos) = (normalised cs.length pos : Int) := by
    unfold normalised
    split_ifs <;> omega
  unfold substr substrSpec
  rw [fromEnd_encode target short range, Option.bind_some]
  dsimp only
  rw [clamped]
  cases len with
  | none => exact select_encode target cs _ none (fun l none_ => by cases none_)
  | some l =>
    have natural := positive l rfl
    dsimp only
    have same : (if l < 0 then (cs.length : Int) + l else l) = l := if_neg (by omega)
    rw [fromEnd_encode target short (by omega), Option.bind_some, same]
    by_cases zero : l = 0
    · subst zero
      rfl
    · rw [if_neg (by omega)]
      have run := select_encode target cs (normalised cs.length pos) (some l.toNat)
        (by simp only [Option.some.injEq]; omega)
      rw [Option.map_some, Int.ofNat_eq_natCast, Int.toNat_of_nonneg natural] at run
      exact run

/-- The selection between two different positions. -/
theorem select_between (cs : List Char) {a b : Int} (natural : 0 ≤ a) (order : a < b) :
    select target (encode cs) a (some (b - a)) =
      some (encode (selected cs a.toNat (some (b.toNat - a.toNat)))) := by
  have run := select_encode target cs a.toNat (some (b.toNat - a.toNat))
    (by simp only [Option.some.injEq]; omega)
  have length : Int.ofNat (b.toNat - a.toNat) = b - a := by
    rw [Int.ofNat_eq_natCast]
    omega
  rwa [Option.map_some, length, Int.toNat_of_nonneg natural] at run

theorem substring_encode (cs : List Char) (startIndex : Int) (endIndex : Option Int) :
    substring target (encode cs) startIndex endIndex =
      some (encode (substringSpec cs startIndex endIndex)) := by
  have clamped (a : Int) : (if a < 0 then 0 else a) = (a.toNat : Int) := by
    split <;> omega
  unfold substring substringSpec
  dsimp only
  rw [clamped]
  cases endIndex with
  | none => exact select_encode target cs _ none (fun l none_ => by cases none_)
  | some endIndex =>
    dsimp only
    rw [clamped]
    generalize startIndex.toNat = a
    generalize endIndex.toNat = b
    by_cases equal : a = b
    · subst equal
      rw [if_pos rfl, Nat.max_self, Nat.min_self, Nat.sub_self]
      rfl
    · rw [if_neg (by omega)]
      by_cases swapped : b < a
      · rw [if_pos (by omega), Nat.min_eq_right (Nat.le_of_lt swapped),
          Nat.max_eq_left (Nat.le_of_lt swapped)]
        exact select_between target cs (Int.natCast_nonneg b) (by omega)
      · have order : a < b := by omega
        rw [if_neg (by omega), Nat.min_eq_left (Nat.le_of_lt order),
          Nat.max_eq_right (Nat.le_of_lt order)]
        exact select_between target cs (Int.natCast_nonneg a) (by omega)

end Haxe.Source.UnicodeString
