import Haxe.Source.Std.UnicodeString
import Haxe.Source.Std.XmlTree

/-!
# What is printed of XML

The texts of the printer by characters, and the nodes without indentation.
-/

namespace Haxe.Source.Xml

open Theory

variable {p : Platform} {quotes : Bool}

section Texts

/-- The entity that a character is escaped to. -/
def entityName (quotes : Bool) (c : Nat) : Option (List Nat) :=
  if c = '&'.toNat then some (ascii "amp")
  else if c = '<'.toNat then some (ascii "lt")
  else if c = '>'.toNat then some (ascii "gt")
  else if c = '"'.toNat ∧ quotes then some (ascii "quot")
  else if c = '\''.toNat ∧ quotes then some (ascii "#039")
  else none

/-- A character with its escape. -/
@[grind =] def escaped (p : Platform) (quotes : Bool) (c : Char) : List Nat :=
  match entityName quotes c.toNat with
  | some name => '&'.toNat :: (name ++ [';'.toNat])
  | none => p.encoding.units c

theorem entityName_some {c : Nat} {name : List Nat} (named : entityName quotes c = some name) :
    (c = '&'.toNat ∧ name = ascii "amp") ∨ (c = '<'.toNat ∧ name = ascii "lt") ∨
      (c = '>'.toNat ∧ name = ascii "gt") ∨ (c = '"'.toNat ∧ name = ascii "quot") ∨
      (c = '\''.toNat ∧ name = ascii "#039") := by
  unfold entityName at named
  by_cases amp : c = '&'.toNat
  · rw [if_pos amp] at named
    exact .inl ⟨amp, (Option.some.inj named).symm⟩
  by_cases lt : c = '<'.toNat
  · rw [if_neg amp, if_pos lt] at named
    exact .inr (.inl ⟨lt, (Option.some.inj named).symm⟩)
  by_cases gt : c = '>'.toNat
  · rw [if_neg amp, if_neg lt, if_pos gt] at named
    exact .inr (.inr (.inl ⟨gt, (Option.some.inj named).symm⟩))
  by_cases quot : c = '"'.toNat ∧ quotes = true
  · rw [if_neg amp, if_neg lt, if_neg gt, if_pos quot] at named
    exact .inr (.inr (.inr (.inl ⟨quot.1, (Option.some.inj named).symm⟩)))
  by_cases apos : c = '\''.toNat ∧ quotes = true
  · rw [if_neg amp, if_neg lt, if_neg gt, if_neg quot, if_pos apos] at named
    exact .inr (.inr (.inr (.inr ⟨apos.1, (Option.some.inj named).symm⟩)))
  · rw [if_neg amp, if_neg lt, if_neg gt, if_neg quot, if_neg apos] at named
    exact nomatch named

/-- A character that is not escaped. -/
theorem entityName_none {c : Nat} (plain : entityName quotes c = none) :
    c ≠ '&'.toNat ∧ c ≠ '<'.toNat ∧ c ≠ '>'.toNat ∧ (quotes = true → c ≠ '"'.toNat) := by
  unfold entityName at plain
  refine ⟨fun amp => ?_, fun lt => ?_, fun gt => ?_, fun quoted quot => ?_⟩
  · rw [if_pos amp] at plain
    exact nomatch plain
  · rw [lt, if_neg (by decide), if_pos rfl] at plain
    exact nomatch plain
  · rw [gt, if_neg (by decide), if_neg (by decide), if_pos rfl] at plain
    exact nomatch plain
  · rw [quot, if_neg (by decide), if_neg (by decide), if_neg (by decide),
      if_pos ⟨rfl, quoted⟩] at plain
    exact nomatch plain

theorem entityName_wide {c : Nat} (wide : 128 ≤ c) : entityName quotes c = none := by
  unfold entityName
  rw [if_neg, if_neg, if_neg, if_neg, if_neg]
  all_goals simp only [Char.reduceToNat]; omega

theorem escapeCode_eq (code : Nat) :
    escapeCode p quotes code =
      match entityName quotes code with
      | some name => '&'.toNat :: (name ++ [';'.toNat])
      | none => p.encoding.addChar code := by
  unfold escapeCode entityName
  by_cases amp : code = '&'.toNat
  · rw [if_pos amp, if_pos amp]
    rfl
  by_cases lt : code = '<'.toNat
  · rw [if_neg amp, if_neg amp, if_pos lt, if_pos lt]
    rfl
  by_cases gt : code = '>'.toNat
  · rw [if_neg amp, if_neg amp, if_neg lt, if_neg lt, if_pos gt, if_pos gt]
    rfl
  by_cases quot : code = '"'.toNat ∧ quotes = true
  · rw [if_neg amp, if_neg amp, if_neg lt, if_neg lt, if_neg gt, if_neg gt, if_pos quot,
      if_pos quot]
    rfl
  rw [if_neg amp, if_neg amp, if_neg lt, if_neg lt, if_neg gt, if_neg gt, if_neg quot,
    if_neg quot]
  by_cases apos : code = '\''.toNat ∧ quotes = true
  · rw [if_pos apos, if_pos apos]
    rfl
  · rw [if_neg apos, if_neg apos]

/-- A code point of the iterator, escaped. -/
theorem escapeCode_toNat (wide : p.encoding ≠ .bytes) (c : Char) :
    escapeCode p quotes c.toNat = escaped p quotes c := by
  have units : p.encoding.addChar c.toNat = p.encoding.units c := by
    unfold Encoding.addChar
    cases e : p.encoding with
    | utf16 =>
      rw [units_utf16, Utf16.units]
      by_cases large : 65536 ≤ c.toNat
      · rw [if_pos ⟨rfl, large⟩, if_neg (Nat.not_lt.mpr large)]
      · rw [if_neg (fun pair => large pair.2), if_pos (Nat.not_le.mp large)]
    | scalars => exact if_neg (fun pair => absurd pair.1 (by decide))
    | bytes => exact absurd e wide
  rw [escapeCode_eq, units]
  rfl

theorem unicodeCodes_encode (e : p.encoding = .utf16) (cs : List Char) :
    unicodeCodes p false (p.encoding.encode cs) = cs.map Char.toNat := by
  induction cs with
  | nil => rfl
  | cons c cs ih =>
    have first : UnicodeString.utf16CodePointAt p.target (p.encoding.encode (c :: cs)) 0 =
        (c.toNat : Int) := by
      have found := @UnicodeString.codePointAt p.target (c :: cs) 0 (Nat.zero_lt_succ _)
      rw [e]
      exact found
    have split := encode_cons p.encoding c cs
    rw [split] at first ⊢
    by_cases small : c.toNat < 65536
    · have single : p.encoding.units c = [c.toNat] := by
        rw [e]
        exact if_pos small
      have more : decide (65536 ≤ c.toNat) = false := decide_eq_false (Nat.not_le.mpr small)
      rw [single, List.cons_append, List.nil_append] at first ⊢
      rw [unicodeCodes, if_pos e]
      simp only [first, Int.toNat_natCast, more]
      rw [ih, List.map_cons]
    · have pair : p.encoding.units c =
          [55296 + (c.toNat - 65536) / 1024, 56320 + (c.toNat - 65536) % 1024] := by
        rw [e]
        exact if_neg small
      have more : decide (65536 ≤ c.toNat) = true := decide_eq_true (Nat.not_lt.mp small)
      rw [pair, List.cons_append, List.cons_append, List.nil_append] at first ⊢
      rw [unicodeCodes, if_pos e]
      simp only [first, Int.toNat_natCast, more]
      rw [unicodeCodes, ih, List.map_cons]

theorem unicodeCodes_other (e : p.encoding ≠ .utf16) (s : List Nat) :
    unicodeCodes p false s = s := by
  induction s with
  | nil => rfl
  | cons c s ih => rw [unicodeCodes, if_neg e, ih]

/-- The units of a character, each of them escaped. -/
theorem escapeCode_units (e : p.encoding = .bytes) (c : Char) :
    (p.encoding.units c).flatMap (escapeCode p quotes) = escaped p quotes c := by
  have same : ∀ u : Nat, p.encoding.addChar u = [u] := by
    intro u
    rw [e]
    exact if_neg (fun pair => absurd pair.1 (by decide))
  by_cases narrow : c.toNat < 128
  · rw [units_narrow _ narrow, List.flatMap_singleton, escapeCode_eq, same]
    unfold escaped
    rw [units_narrow _ narrow]
  · have plain : ∀ u ∈ p.encoding.units c, escapeCode p quotes u = [u] := by
      intro u member
      rw [escapeCode_eq, entityName_wide (units_wide _ (Nat.not_lt.mp narrow) u member)]
      exact same u
    unfold escaped
    rw [entityName_wide (Nat.not_lt.mp narrow), List.flatMap_congr plain, List.flatMap_singleton']

theorem htmlEscape_encode (cs : List Char) :
    htmlEscape p (p.encoding.encode cs) quotes = cs.flatMap (escaped p quotes) := by
  unfold htmlEscape
  cases e : p.encoding with
  | utf16 =>
    rw [← e, unicodeCodes_encode e, List.flatMap_map]
    apply List.flatMap_congr
    intro c _
    exact escapeCode_toNat (by rw [e]; decide) c
  | scalars =>
    have other : p.encoding ≠ .utf16 := by
      rw [e]
      decide
    rw [unicodeCodes_other other]
    induction cs with
    | nil => rfl
    | cons c cs ih =>
      rw [encode_cons, List.flatMap_append, ih, List.flatMap_cons]
      congr 1
      rw [← escapeCode_toNat (by rw [e]; decide) c]
      exact List.flatMap_singleton ..
  | bytes =>
    have other : p.encoding ≠ .utf16 := by
      rw [e]
      decide
    rw [unicodeCodes_other other]
    induction cs with
    | nil => rfl
    | cons c cs ih =>
      rw [encode_cons, List.flatMap_append, ih, List.flatMap_cons, ← e, escapeCode_units e]

end Texts

end Haxe.Source.Xml
