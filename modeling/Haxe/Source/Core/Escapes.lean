import Haxe.Source.Extlib.UTF8Boundaries
import Haxe.Theory.UnicodeForms

/-!
# Escapes in strings

`unescape` of `core/ast.ml` and `s_escape` of `core/stringHelper.ml`. A string is the list of the
codes of its bytes. The digits of an escape are read by `int_of_string`, which takes underscores
between them, and a backslash at the end is dropped.
-/

namespace Haxe.Source.Escapes

open Theory UTF8

def codes (s : String) : List Nat := s.toList.map Char.toNat

/-! ## `int_of_string` -/

def digitOf (c : Nat) : Option Nat :=
  if 48 ≤ c ∧ c ≤ 57 then some (c - 48)
  else if 65 ≤ c ∧ c ≤ 70 then some (c - 55)
  else if 97 ≤ c ∧ c ≤ 102 then some (c - 87)
  else none

def digitIn (base c : Nat) : Option Nat := (digitOf c).filter (· < base)

/-- The digits behind the first one. -/
def moreDigits (base : Nat) : List Nat → Nat → Option Nat
  | [], v => some v
  | c :: s, v =>
    if c = '_'.toNat then moreDigits base s v
    else (digitIn base c).bind fun d => moreDigits base s (base * v + d)

def magnitude (base : Nat) : List Nat → Option Nat
  | [] => none
  | c :: s => (digitIn base c).bind (moreDigits base s)

/-- The base, and whether the number is signed. -/
def prefixOf : List Nat → Nat × Bool × List Nat
  | 48 :: c :: s =>
    if c = 'x'.toNat ∨ c = 'X'.toNat then (16, false, s)
    else if c = 'o'.toNat ∨ c = 'O'.toNat then (8, false, s)
    else if c = 'b'.toNat ∨ c = 'B'.toNat then (2, false, s)
    else if c = 'u'.toNat ∨ c = 'U'.toNat then (10, false, s)
    else (10, true, 48 :: c :: s)
  | s => (10, true, s)

/-- An `int` has 63 bits, and `2 ^ 62` and more is negative where it is not signed. -/
def inRange (negative signed : Bool) (v : Nat) : Bool :=
  if signed then v < 4611686018427387904 || (negative && v = 4611686018427387904)
  else v < 9223372036854775808

def unsignedOf (negative : Bool) (s : List Nat) : Option Int :=
  let (base, signed, digits) := prefixOf s
  (magnitude base digits).bind fun v =>
    if inRange negative signed v then
      some (Int.bmod (if negative then -v else v) 9223372036854775808)
    else none

/-- `int_of_string`; `none` is `Failure`. -/
def intOfString : List Nat → Option Int
  | 45 :: s => unsignedOf true s
  | 43 :: s => unsignedOf false s
  | s => unsignedOf false s

def octalNumber (digits : List Nat) : Option Int := intOfString (codes "0o" ++ digits)

def hexNumber (digits : List Nat) : Option Int := intOfString (codes "0x" ++ digits)

/-! ## `unescape` -/

/-- What is raised: `Invalid_escape_sequence`, or an exception of the UTF-8 library. -/
inductive Failed where
  | invalidEscapeSequence (c i : Nat) (message : Option (List Nat))
  | raised (e : Failure)
  deriving DecidableEq, Repr

abbrev Run := Except Failed

/-- `String.sub` from the position where `t` is left. -/
def sub (t : List Nat) (n : Nat) : Option (List Nat) :=
  if n ≤ t.length then some (t.take n) else none

/-- `char_of_int` -/
def charOfInt (u : Int) : Run Nat :=
  if 0 ≤ u ∧ u < 256 then .ok u.toNat else .error (.raised .invalidArgument)

/-- `%02x` -/
def hex02 (u : Nat) : List Nat := [Nat.digitChar (u / 16), Nat.digitChar (u % 16)].map Char.toNat

/-- `%.2X` -/
def hex2 (u : Nat) : List Nat :=
  [(Nat.digitChar (u / 16)).toUpper, (Nat.digitChar (u % 16)).toUpper].map Char.toNat

section

/-! `c` stands at `i`, and `t` behind it. An escape has its bytes and the number of characters that
are skipped behind `c`. -/

variable (c i : Nat) (t : List Nat)

def fail {α : Type} (message : Option (List Nat)) : Run α :=
  .error (.invalidEscapeSequence c i message)

def octalEscape : Run (List Nat × Nat) :=
  match (sub (c :: t) 3).bind octalNumber with
  | none => fail c i none
  | some u =>
    if u > 127 then
      fail c i (some (codes "Values greater than \\177 are not allowed. Use \\u00" ++
        hex02 u.toNat ++ codes " instead."))
    else (charOfInt u).map fun b => ([b], 2)

def hexEscape : Run (List Nat × Nat) :=
  match (sub t 2).bind fun hex => (hexNumber hex).map (hex, ·) with
  | none => fail c i (some (codes "Must be followed by a hexadecimal sequence."))
  | some (hex, u) =>
    if u > 127 then
      fail c i (some (codes "Values greater than \\x7f are not allowed. Use \\u00" ++ hex ++
        codes " instead."))
    else (charOfInt u).map fun b => ([b], 2)

/-- The number between curly brackets, and the number of its digits. The closing one is looked for
behind the first digit. -/
def bracedNumber : List Nat → Option (Int × Nat)
  | 123 :: d :: t =>
    (t.idxOf? '}'.toNat).bind fun k => (hexNumber (d :: t.take k)).map (·, k + 1)
  | _ => none

def unicodeNumber : Run (Int × Nat) :=
  match (sub t 4).bind hexNumber with
  | some u => .ok (u, 4)
  | none =>
    match bracedNumber t with
    | none =>
      fail c i
        (some (codes "Must be followed by a hexadecimal sequence enclosed in curly brackets."))
    | some (u, l) =>
      if u > 0x10FFFF then
        fail c i (some (codes "Maximum allowed value for unicode escape sequence is \\u\x7b10FFFF\x7d"))
      else .ok (u, l + 2)

def unicodeBytes (u : Int) : Run (List Nat) :=
  if u ≥ 0xD800 ∧ u < 0xE000 then
    fail c i (some (codes "UTF-16 surrogates are not allowed in strings."))
  else
    match ucharOfInt u with
    | .error e => .error (.raised e)
    | .ok point => .ok (addUchar point)

def unicodeEscape : Run (List Nat × Nat) :=
  (unicodeNumber c i t).bind fun (u, a) => (unicodeBytes c i u).map (·, a)

def escape : Run (List Nat × Nat) :=
  if c = 'n'.toNat then .ok ([10], 0)
  else if c = 'r'.toNat then .ok ([13], 0)
  else if c = 't'.toNat then .ok ([9], 0)
  else if c = '"'.toNat ∨ c = '\''.toNat ∨ c = '\\'.toNat then .ok ([c], 0)
  else if '0'.toNat ≤ c ∧ c ≤ '3'.toNat then octalEscape c i t
  else if c = 'x'.toNat then hexEscape c i t
  else if c = 'u'.toNat then unicodeEscape c i t
  else fail c i none

end

/-- `t` is left of a string of `length` characters, and `esc` says that a backslash stands in front.
At the end it is not looked at. -/
def loop (length : Nat) (esc : Bool) (b : List Nat) : List Nat → Run (List Nat)
  | [] => .ok b
  | c :: t =>
    if esc then
      match escape c (length - (t.length + 1)) t with
      | .error e => .error e
      | .ok (bytes, skipped) => loop length false (b ++ bytes) (t.drop skipped)
    else if c = '\\'.toNat then loop length true b t
    else loop length false (b ++ [c]) t
termination_by t => t.length
decreasing_by all_goals simp only [List.length_cons, List.length_drop]; omega

def unescape (s : List Nat) : Run (List Nat) := loop s.length false [] s

/-! ## `s_escape` -/

def escaped (hex : Bool) (c : Nat) : List Nat :=
  if c = '\n'.toNat then codes "\\n"
  else if c = '\t'.toNat then codes "\\t"
  else if c = '\r'.toNat then codes "\\r"
  else if c = '"'.toNat then codes "\\\""
  else if c = '\\'.toNat then codes "\\\\"
  else if c < 32 ∧ hex = true then codes "\\x" ++ hex2 c
  else [c]

def sEscape (hex : Bool) (s : List Nat) : List Nat := s.flatMap (escaped hex)

/-! ## What escapes stand for -/

/-- An escape by its first character, the characters behind it, and its bytes. -/
inductive Escape : Nat → List Nat → List Nat → Prop
  | newline : Escape 'n'.toNat [] [10]
  | return_ : Escape 'r'.toNat [] [13]
  | tab : Escape 't'.toNat [] [9]
  | quoted {c : Nat} : c = '"'.toNat ∨ c = '\''.toNat ∨ c = '\\'.toNat → Escape c [] [c]
  | octal {c : Nat} {ds : List Nat} {v : Nat} : '0'.toNat ≤ c → c ≤ '3'.toNat → ds.length = 2 →
      octalNumber (c :: ds) = some (v : Int) → v ≤ 127 → Escape c ds [v]
  | hex {ds : List Nat} {v : Nat} : ds.length = 2 → hexNumber ds = some (v : Int) → v ≤ 127 →
      Escape 'x'.toNat ds [v]
  | unicode {ds : List Nat} {p : Char} : ds.length = 4 → hexNumber ds = some (p.toNat : Int) →
      Escape 'u'.toNat ds (Utf8.bytes p)
  | braced {d : Nat} {ds : List Nat} {p : Char} : '}'.toNat ∉ ds →
      hexNumber (d :: ds) = some (p.toNat : Int) →
      Escape 'u'.toNat ('{'.toNat :: d :: (ds ++ ['}'.toNat])) (Utf8.bytes p)

/-- Every backslash begins an escape, or ends the string. -/
inductive Denotes : List Nat → List Nat → Prop
  | nil : Denotes [] []
  | dangling : Denotes ['\\'.toNat] []
  | byte {c : Nat} {t r : List Nat} : c ≠ '\\'.toNat → Denotes t r → Denotes (c :: t) (c :: r)
  | escape {c : Nat} {behind bytes t r : List Nat} : Escape c behind bytes →
      Denotes t r → Denotes ('\\'.toNat :: c :: (behind ++ t)) (bytes ++ r)

section Numbers

variable {base v w : Nat} {ds : List Nat}

theorem moreDigits_lt (positive : 0 < base) (more : moreDigits base ds v = some w) :
    w < base ^ ds.length * (v + 1) := by
  induction ds generalizing v with
  | nil =>
    cases more
    simp
  | cons c ds ih =>
    rw [List.length_cons, Nat.pow_succ]
    rw [moreDigits] at more
    split at more
    · calc w < base ^ ds.length * (v + 1) := ih more
        _ ≤ base ^ ds.length * base * (v + 1) :=
          Nat.mul_le_mul_right _ (Nat.le_mul_of_pos_right _ positive)
    · obtain ⟨d, digit, more⟩ := Option.bind_eq_some_iff.mp more
      have small : d < base := of_decide_eq_true (Option.filter_eq_some_iff.mp digit).2
      have step : base * v + d + 1 ≤ base * (v + 1) := by
        rw [Nat.mul_succ]
        omega
      calc w < base ^ ds.length * (base * v + d + 1) := ih more
        _ ≤ base ^ ds.length * (base * (v + 1)) := Nat.mul_le_mul_left _ step
        _ = base ^ ds.length * base * (v + 1) := (Nat.mul_assoc _ _ _).symm

/-- Four digits do not go beyond the code points. -/
theorem hexNumber_four {u : Int} (four : ds.length = 4) (read : hexNumber ds = some u) :
    u ≤ 0x10FFFF := by
  have spelled : codes "0x" = [48, 120] := rfl
  have hex : hexNumber ds = (magnitude 16 ds).bind fun v =>
      if v < 9223372036854775808 then some (Int.bmod v 9223372036854775808) else none := by
    rw [hexNumber, spelled]
    simp [intOfString, unsignedOf, prefixOf, inRange]
  rw [hex] at read
  obtain ⟨v, digits, ranged⟩ := Option.bind_eq_some_iff.mp read
  cases ds with
  | nil => cases four
  | cons c ds =>
    obtain ⟨d, digit, more⟩ := Option.bind_eq_some_iff.mp digits
    have three : ds.length = 3 := Nat.succ.inj four
    have small : d < 16 := of_decide_eq_true (Option.filter_eq_some_iff.mp digit).2
    have bound := moreDigits_lt (by decide) more
    rw [three] at bound
    rw [if_pos (by omega), Option.some.injEq, Int.bmod_def] at ranged
    split at ranged <;> omega

theorem hexNumber_brace (t : List Nat) : hexNumber ('{'.toNat :: t) = none := rfl

end Numbers

theorem addUchar_bytes {u : CodePoint} {p : Char} (same : u.val = p.toNat) :
    addUchar u = Utf8.bytes p := by
  have valid := Utf8.toNat_valid p
  have two : u.val ≤ 0x7ff → 0xc0 ||| (u.val / 64) = 0xc0 + u.val / 64 := fun small =>
    (Nat.two_pow_add_eq_or_of_lt (i := 6) (by omega) 3).symm
  have three : u.val ≤ 0xffff → 0xe0 ||| (u.val / 4096) = 0xe0 + u.val / 4096 := fun small =>
    (Nat.two_pow_add_eq_or_of_lt (i := 5) (by omega) 7).symm
  unfold addUchar Utf8.bytes
  simp only [continuation, Nat.shiftRight_eq_div_pow, Nat.reducePow, ← same]
  rw [if_neg (show ¬ u.val ≥ 0x4000000 by omega)]
  by_cases one : u.val ≤ 0x7f
  · rw [if_pos one, if_pos (show u.val < 128 by omega)]
  · rw [if_neg one, if_neg (show ¬ u.val < 128 by omega)]
    by_cases short : u.val ≤ 0x7ff
    · rw [if_pos short, if_pos (show u.val < 2048 by omega), two short]
    · rw [if_neg short, if_neg (show ¬ u.val < 2048 by omega)]
      by_cases plane : u.val ≤ 0xffff
      · rw [if_pos plane, if_pos (show u.val < 65536 by omega), three plane]
      · rw [if_neg plane, if_neg (show ¬ u.val < 65536 by omega),
          if_pos (show u.val ≤ 0x1fffff by omega)]

section Escapes

variable {c i n : Nat} {t behind bytes rest : List Nat}

theorem sub_bind_eq_some {α : Type} {f : List Nat → Option α} {a : α} :
    (sub t n).bind f = some a ↔ n ≤ t.length ∧ f (t.take n) = some a := by
  unfold sub
  split
  · next long => exact (and_iff_right long).symm
  · next short => exact ⟨(fun none => nomatch none), fun both => absurd both.1 short⟩

theorem map_eq_ok {α β : Type} {f : α → β} {r : Run α} {b : β} :
    r.map f = .ok b ↔ ∃ a, r = .ok a ∧ f a = b := by
  cases r <;> simp [Except.map]

theorem charOfInt_ok {u : Int} {b : Nat} (ok : charOfInt u = .ok b) : u = b := by
  unfold charOfInt at ok
  split at ok
  · next inside =>
    obtain rfl := Except.ok.inj ok
    exact (Int.toNat_of_nonneg inside.1).symm
  · cases ok

theorem charOfInt_small {v : Nat} (small : v ≤ 127) : charOfInt v = .ok v :=
  if_pos (by omega)

theorem unicodeBytes_char (p : Char) : unicodeBytes c i p.toNat = .ok (Utf8.bytes p) := by
  have valid := Utf8.toNat_valid p
  have made : ucharOfInt p.toNat = .ok ⟨p.toNat, by omega⟩ := dif_pos (by omega)
  unfold unicodeBytes
  rw [if_neg (by omega), made]
  exact congrArg Except.ok (addUchar_bytes rfl)

theorem unicodeBytes_ok {u : Int} (max : u ≤ 0x10FFFF) (ok : unicodeBytes c i u = .ok bytes) :
    ∃ p : Char, u = p.toNat ∧ bytes = Utf8.bytes p := by
  unfold unicodeBytes ucharOfInt at ok
  split at ok
  · cases ok
  · next scalar =>
    by_cases inside : 0 ≤ u ∧ u < 2 ^ 31
    · rw [dif_pos inside] at ok
      obtain ⟨p, same⟩ : ∃ p : Char, p.toNat = u.toNat := Utf8.exists_char (by omega)
      obtain rfl := Except.ok.inj ok
      exact ⟨p, by omega, addUchar_bytes same.symm⟩
    · rw [dif_neg inside] at ok
      cases ok

theorem octalEscape_sound (low : '0'.toNat ≤ c) (high : c ≤ '3'.toNat)
    (ok : octalEscape c i t = .ok (bytes, n)) : n ≤ t.length ∧ Escape c (t.take n) bytes := by
  unfold octalEscape at ok
  split at ok
  · cases ok
  · next u read =>
    obtain ⟨long, read⟩ := sub_bind_eq_some.mp read
    split at ok
    · cases ok
    · obtain ⟨b, made, same⟩ := map_eq_ok.mp ok
      obtain ⟨rfl, rfl⟩ := Prod.mk.inj same
      obtain rfl := charOfInt_ok made
      rw [List.length_cons] at long
      exact ⟨by omega, .octal low high (List.length_take_of_le (by omega)) read (by omega)⟩

theorem hexEscape_sound (ok : hexEscape 'x'.toNat i t = .ok (bytes, n)) :
    n ≤ t.length ∧ Escape 'x'.toNat (t.take n) bytes := by
  unfold hexEscape at ok
  split at ok
  · cases ok
  · next hex u read =>
    obtain ⟨long, read⟩ := sub_bind_eq_some.mp read
    obtain ⟨u', digits, same⟩ := Option.map_eq_some_iff.mp read
    obtain ⟨rfl, rfl⟩ := Prod.mk.inj same
    split at ok
    · cases ok
    · obtain ⟨b, made, same⟩ := map_eq_ok.mp ok
      obtain ⟨rfl, rfl⟩ := Prod.mk.inj same
      obtain rfl := charOfInt_ok made
      exact ⟨long, .hex (List.length_take_of_le long) digits (by omega)⟩

theorem bracedNumber_eq_some {u : Int} : bracedNumber t = some (u, n) ↔
    ∃ d ds rest, t = '{'.toNat :: d :: (ds ++ '}'.toNat :: rest) ∧ '}'.toNat ∉ ds ∧
      hexNumber (d :: ds) = some u ∧ n = ds.length + 1 := by
  constructor
  · intro braced
    unfold bracedNumber at braced
    split at braced
    · next d t =>
      obtain ⟨k, found, braced⟩ := Option.bind_eq_some_iff.mp braced
      obtain ⟨u', read, same⟩ := Option.map_eq_some_iff.mp braced
      obtain ⟨rfl, rfl⟩ := Prod.mk.inj same
      obtain ⟨bound, close, first⟩ := List.idxOf?_eq_some_iff.mp found
      refine ⟨d, t.take k, t.drop (k + 1), ?_, ?_, read, ?_⟩
      · have split : t = t.take k ++ t[k] :: t.drop (k + 1) := by
          rw [← List.drop_eq_getElem_cons bound, List.take_append_drop]
        rw [close] at split
        exact congrArg ('{'.toNat :: d :: ·) split
      · intro member
        obtain ⟨j, inside, same⟩ := List.getElem_of_mem member
        rw [List.length_take] at inside
        rw [List.getElem_take] at same
        exact first j (by omega) same
      · rw [List.length_take_of_le (Nat.le_of_lt bound)]
    · cases braced
  · rintro ⟨d, ds, rest, rfl, absent, read, rfl⟩
    have found : (ds ++ '}'.toNat :: rest).idxOf? '}'.toNat = some ds.length := by
      refine List.idxOf?_eq_some_iff.mpr ⟨by simp, by simp, fun j inside same => ?_⟩
      rw [List.getElem_append_left inside] at same
      exact absent (same ▸ List.getElem_mem inside)
    show (List.idxOf? _ _).bind _ = _
    rw [found, Option.bind_some, List.take_left, read]
    rfl

theorem unicodeEscape_sound (ok : unicodeEscape 'u'.toNat i t = .ok (bytes, n)) :
    n ≤ t.length ∧ Escape 'u'.toNat (t.take n) bytes := by
  unfold unicodeEscape unicodeNumber at ok
  split at ok
  · next u read =>
    obtain ⟨long, read⟩ := sub_bind_eq_some.mp read
    have four := List.length_take_of_le long
    obtain ⟨b, made, same⟩ := map_eq_ok.mp ok
    obtain ⟨rfl, rfl⟩ := Prod.mk.inj same
    obtain ⟨p, rfl, rfl⟩ := unicodeBytes_ok (hexNumber_four four read) made
    exact ⟨long, .unicode four read⟩
  · split at ok
    · cases ok
    · next u l braced =>
      split at ok
      · cases ok
      · next max =>
        obtain ⟨b, made, same⟩ := map_eq_ok.mp ok
        obtain ⟨rfl, rfl⟩ := Prod.mk.inj same
        obtain ⟨d, ds, rest, rfl, absent, read, rfl⟩ := bracedNumber_eq_some.mp braced
        obtain ⟨p, rfl, rfl⟩ := unicodeBytes_ok (by omega) made
        have taken : ('{'.toNat :: d :: (ds ++ '}'.toNat :: rest)).take (ds.length + 1 + 2) =
            '{'.toNat :: d :: (ds ++ ['}'.toNat]) := by
          rw [List.take_succ_cons, List.take_succ_cons, List.take_length_add_append]
          rfl
        rw [taken]
        exact ⟨by simp, .braced absent read⟩

/-- What is accepted behind a backslash is an escape. -/
theorem escape_sound (ok : escape c i t = .ok (bytes, n)) :
    n ≤ t.length ∧ Escape c (t.take n) bytes := by
  unfold escape at ok
  split at ok
  · next same =>
    cases ok
    exact ⟨Nat.zero_le _, same ▸ .newline⟩
  split at ok
  · next same =>
    cases ok
    exact ⟨Nat.zero_le _, same ▸ .return_⟩
  split at ok
  · next same =>
    cases ok
    exact ⟨Nat.zero_le _, same ▸ .tab⟩
  split at ok
  · next quote =>
    cases ok
    exact ⟨Nat.zero_le _, .quoted quote⟩
  split at ok
  · next digit => exact octalEscape_sound digit.1 digit.2 ok
  split at ok
  · next same =>
    subst same
    exact hexEscape_sound ok
  split at ok
  · next same =>
    subst same
    exact unicodeEscape_sound ok
  · cases ok

/-- An escape is accepted with the characters that belong to it. -/
theorem escape_complete (is : Escape c behind bytes) :
    escape c i (behind ++ rest) = .ok (bytes, behind.length) := by
  cases is with
  | newline => rfl
  | return_ => rfl
  | tab => rfl
  | quoted quote => rcases quote with rfl | rfl | rfl <;> rfl
  | @octal _ _ v low high two read small =>
    simp only [Char.reduceToNat] at low high
    have digits : (sub (c :: (behind ++ rest)) 3).bind octalNumber = some (v : Int) :=
      sub_bind_eq_some.mpr ⟨by simp [two], by simpa [List.take_left' two] using read⟩
    have branch : escape c i (behind ++ rest) = octalEscape c i (behind ++ rest) := by
      unfold escape
      simp only [Char.reduceToNat]
      rw [if_neg (by omega), if_neg (by omega), if_neg (by omega), if_neg (by omega),
        if_pos ⟨low, high⟩]
    rw [branch, octalEscape, digits]
    show (if (v : Int) > 127 then _ else _) = _
    rw [if_neg (by omega), charOfInt_small small, two]
    rfl
  | @hex _ v two read small =>
    have digits : (sub (behind ++ rest) 2).bind (fun hex => (hexNumber hex).map (hex, ·)) =
        some (behind, (v : Int)) :=
      sub_bind_eq_some.mpr ⟨by simp [two], by rw [List.take_left' two, read]; rfl⟩
    show hexEscape _ i _ = _
    rw [hexEscape, digits]
    show (if (v : Int) > 127 then _ else _) = _
    rw [if_neg (by omega), charOfInt_small small, two]
    rfl
  | @unicode _ p four read =>
    have digits : (sub (behind ++ rest) 4).bind hexNumber = some (p.toNat : Int) :=
      sub_bind_eq_some.mpr ⟨by simp [four], by rw [List.take_left' four, read]⟩
    show unicodeEscape _ i _ = _
    rw [unicodeEscape, unicodeNumber, digits, four]
    show (unicodeBytes _ i p.toNat).map _ = _
    rw [unicodeBytes_char]
    rfl
  | @braced d ds p absent read =>
    have valid := Utf8.toNat_valid p
    have open_ : '{'.toNat :: d :: (ds ++ ['}'.toNat]) ++ rest =
        '{'.toNat :: d :: (ds ++ '}'.toNat :: rest) := by simp
    have unread : (sub ('{'.toNat :: d :: (ds ++ '}'.toNat :: rest)) 4).bind hexNumber = none :=
      Option.eq_none_iff_forall_ne_some.mpr fun u four => by
        have digits := (sub_bind_eq_some.mp four).2
        rw [List.take_succ_cons, hexNumber_brace] at digits
        cases digits
    have length : ('{'.toNat :: d :: (ds ++ ['}'.toNat])).length = ds.length + 1 + 2 := by simp
    rw [open_, length]
    show unicodeEscape _ i _ = _
    rw [unicodeEscape, unicodeNumber, unread,
      bracedNumber_eq_some.mpr ⟨d, ds, rest, rfl, absent, read, rfl⟩]
    show Except.bind (if (p.toNat : Int) > 0x10FFFF then _ else _) _ = _
    rw [if_neg (by omega)]
    show (unicodeBytes _ i p.toNat).map _ = _
    rw [unicodeBytes_char]
    rfl

theorem loop_iff (length : Nat) (esc : Bool) (b t : List Nat) {out : List Nat} :
    loop length esc b t = .ok out ↔ ∃ r, out = b ++ r ∧
      Denotes (if esc then '\\'.toNat :: t else t) r := by
  fun_induction loop length esc b t with
  | case1 esc b =>
    constructor
    · intro same
      refine ⟨[], by rw [List.append_nil, Except.ok.inj same], ?_⟩
      cases esc with
      | true => exact .dangling
      | false => exact .nil
    · rintro ⟨r, rfl, denotes⟩
      cases esc with
      | true =>
        cases denotes with
        | dangling => rw [List.append_nil]
        | byte other => exact absurd rfl other
      | false =>
        cases denotes
        rw [List.append_nil]
  | case2 b c t e refused =>
    refine ⟨(fun none => nomatch none), fun ⟨r, _, denotes⟩ => ?_⟩
    cases denotes with
    | byte other => exact absurd rfl other
    | escape is =>
      rw [escape_complete is] at refused
      cases refused
  | case3 b c t bytes n read ih =>
    rw [ih, if_pos rfl, if_neg Bool.false_ne_true]
    constructor
    · rintro ⟨r, rfl, denotes⟩
      obtain ⟨-, is⟩ := escape_sound read
      refine ⟨bytes ++ r, by rw [List.append_assoc], ?_⟩
      have whole := Denotes.escape is denotes
      rwa [List.take_append_drop] at whole
    · rintro ⟨r, rfl, denotes⟩
      cases denotes with
      | byte other => exact absurd rfl other
      | escape is denotes =>
        rw [escape_complete is] at read
        cases read
        exact ⟨_, by rw [List.append_assoc], by rwa [List.drop_left]⟩
  | case4 esc b t plain ih =>
    rw [ih, if_pos rfl, if_neg plain]
  | case5 esc b c t plain other ih =>
    rw [ih, if_neg Bool.false_ne_true, if_neg plain]
    constructor
    · rintro ⟨r, rfl, denotes⟩
      exact ⟨c :: r, by rw [List.append_assoc]; rfl, .byte other denotes⟩
    · rintro ⟨r, rfl, denotes⟩
      cases denotes with
      | dangling => exact absurd rfl other
      | byte _ denotes => exact ⟨_, by rw [List.append_assoc]; rfl, denotes⟩
      | escape _ _ => exact absurd rfl other

/-- `unescape` accepts the strings in which every backslash begins an escape, but for one at the
end. -/
theorem unescape_iff {r : List Nat} : unescape t = .ok r ↔ Denotes t r := by
  unfold unescape
  rw [loop_iff]
  exact ⟨fun ⟨r', same, denotes⟩ => same ▸ denotes, fun denotes => ⟨r, rfl, denotes⟩⟩

theorem hexNumber_hex2 : ∀ c, c < 32 → hexNumber (hex2 c) = some (c : Int) := by decide

/-- Every escape that is written is read as the character it is written for. -/
theorem sEscape_denotes (s : List Nat) : Denotes (sEscape true s) s := by
  induction s with
  | nil => exact .nil
  | cons c s ih =>
    rw [sEscape, List.flatMap_cons]
    change Denotes (_ ++ sEscape true s) _
    generalize sEscape true s = written at ih
    unfold escaped
    split
    · next same => exact same ▸ .escape .newline ih
    split
    · next same => exact same ▸ .escape .tab ih
    split
    · next same => exact same ▸ .escape .return_ ih
    split
    · next same => exact same ▸ .escape (.quoted (.inl rfl)) ih
    split
    · next same => exact same ▸ .escape (.quoted (.inr (.inr rfl))) ih
    split
    · next control =>
      exact .escape (.hex rfl (hexNumber_hex2 c control.1) (by omega)) ih
    · next other _ => exact .byte other ih

end Escapes

end Haxe.Source.Escapes
