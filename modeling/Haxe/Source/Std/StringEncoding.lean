import Haxe.Theory.UnicodeForms

/-!
# Strings of a target

The code units that a string consists of, by the target.
-/

namespace Haxe.Source

open Theory

/-- What the code units of a string are. -/
inductive Encoding where
  | utf16
  | scalars
  /-- Without `target.unicode`: bytes in UTF-8. -/
  | bytes
  deriving DecidableEq

namespace Encoding

@[grind =] def units : Encoding → Char → List Nat
  | .utf16, c => Utf16.units c
  | .scalars, c => [c.toNat]
  | .bytes, c => Utf8.bytes c

def encode (e : Encoding) (cs : List Char) : List Nat := cs.flatMap e.units

/-- `StringBuf.addChar`: what is appended. -/
def addChar (e : Encoding) (c : Nat) : List Nat :=
  if e = .utf16 ∧ 65536 ≤ c then
    [55296 + (c - 65536) / 1024, 56320 + (c - 65536) % 1024]
  else [c]

/-- A string of Unicode scalar values. -/
def WellFormed (e : Encoding) (s : List Nat) : Prop := ∃ cs, s = e.encode cs

end Encoding

/-- The code units of a text in ASCII. -/
def ascii (text : String) : List Nat := text.toList.map Char.toNat

/-- `String.substr` -/
def substr (str : List Nat) (pos len : Nat) : List Nat := (str.drop pos).take len

section Positions

variable {str rest text : List Nat} {pos : Nat}

theorem drop_append (here : str.drop pos = text ++ rest) :
    str.drop (pos + text.length) = rest := by
  rw [← List.drop_drop, here, List.drop_left]

theorem drop_cons {c : Nat} (here : str.drop pos = c :: rest) : str.drop (pos + 1) = rest :=
  @drop_append str rest [c] pos here

theorem substr_of_drop (here : str.drop pos = text ++ rest) :
    substr str pos text.length = text := by
  unfold substr
  rw [here, List.take_left]

/-- A part of the string, prolonged. -/
theorem substr_append {start : Nat} (here : str.drop pos = text ++ rest)
    (order : start ≤ pos) :
    substr str start (pos + text.length - start) = substr str start (pos - start) ++ text := by
  have longer : pos + text.length - start = (pos - start) + text.length := by omega
  unfold substr
  rw [longer, List.take_add, List.drop_drop, Nat.add_sub_of_le order, here, List.take_left]

end Positions

section Units

theorem units_utf16 (c : Char) : Encoding.utf16.units c = Utf16.units c := rfl

theorem units_bytes (c : Char) : Encoding.bytes.units c = Utf8.bytes c := rfl

theorem units_narrow (e : Encoding) {c : Char} (narrow : c.toNat < 128) :
    e.units c = [c.toNat] := by
  cases e with
  | utf16 => exact if_pos (by omega)
  | scalars => rfl
  | bytes => exact if_pos narrow

theorem units_wide (e : Encoding) {c : Char} (wide : 128 ≤ c.toNat) :
    ∀ u ∈ e.units c, 128 ≤ u := by
  intro u member
  cases e with
  | utf16 =>
    rw [units_utf16, Utf16.units] at member
    split at member
    · rw [List.mem_singleton] at member
      rwa [member]
    · simp only [List.mem_cons, List.not_mem_nil, or_false] at member
      omega
  | scalars =>
    obtain rfl := List.mem_singleton.mp member
    exact wide
  | bytes =>
    obtain ⟨b, more, eq, leading, -, -, following⟩ := Utf8.bytes_leading wide (Utf16.toNat_lt c)
    rw [units_bytes, eq, List.mem_cons] at member
    obtain rfl | member := member
    · exact Nat.le_trans (by decide) leading
    · exact following u member

theorem units_ne_nil (e : Encoding) (c : Char) : e.units c ≠ [] := by
  cases e with
  | utf16 =>
    rw [units_utf16]
    unfold Utf16.units
    split <;> exact List.cons_ne_nil _ _
  | scalars => exact List.cons_ne_nil _ _
  | bytes =>
    rw [units_bytes]
    unfold Utf8.bytes
    repeat' split
    all_goals exact List.cons_ne_nil _ _

theorem zero_mem_units (e : Encoding) (c : Char) : 0 ∈ e.units c ↔ c.toNat = 0 := by
  by_cases narrow : c.toNat < 128
  · rw [units_narrow e narrow, List.mem_singleton]
    exact eq_comm
  · constructor
    · intro member
      exact absurd (units_wide e (Nat.not_lt.mp narrow) 0 member) (by decide)
    · intro zero
      omega

theorem encode_cons (e : Encoding) (c : Char) (cs : List Char) :
    e.encode (c :: cs) = e.units c ++ e.encode cs :=
  List.flatMap_cons

end Units

end Haxe.Source
