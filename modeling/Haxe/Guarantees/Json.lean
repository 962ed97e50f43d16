import Haxe.Source.Std.JsonReadBack
import Haxe.Source.Std.JsonTermination

/-!
# JSON printing and reading

What `JsonPrinter.print` writes is read back as the value. On the targets where `StringTools.isEof`
compares with zero it is so exactly for the values in which no string has a zero, since `quote`
writes that character as it is.
-/

namespace Haxe.Guarantees.JsonRoundTrip

open Theory Theory.InterruptedRuns Source Source.Json

variable {F : Type}

theorem json_round_trips_iff (p : Platform F) (exact_ : Exact p) (v : Value F) (plain : Plain p v)
    (space : Option (List Nat)) (blank : Blank space) :
    Settles (fun fuel => parse p (print p space v) fuel) (.returned v) ↔
      (p.eofIsZero = true → v.hasNul = false) := by
  have run := parse_print exact_ blank plain
  constructor
  · intro returned zero
    by_contra nul
    rw [unlessNul_thrown zero ((Bool.not_eq_false _).mp nul)] at run
    exact nomatch Settles.unique returned run
  · intro inside
    rwa [unlessNul_returned inside] at run

/-- The digits of an integer behind its sign. -/
def wholeNumber : List Nat → Int
  | 45 :: digits => -(Nat.ofDigitChars 10 (digits.map Char.ofNat) 0 : Nat)
  | digits => (Nat.ofDigitChars 10 (digits.map Char.ofNat) 0 : Nat)

theorem ofDigitChars_codes (n : Nat) :
    Nat.ofDigitChars 10 (((Nat.toDigits 10 n).map Char.toNat).map Char.ofNat) 0 = n := by
  have same : Char.ofNat ∘ Char.toNat = id := funext Char.ofNat_toNat
  rw [List.map_map, same, List.map_id]
  exact Nat.ofDigitChars_toDigits (by decide) (by decide)

theorem wholeNumber_decimal (i : Int) : wholeNumber (decimal i) = i := by
  unfold decimal
  by_cases negative : i < 0
  · rw [if_pos negative]
    show -((Nat.ofDigitChars 10 _ 0 : Nat) : Int) = i
    rw [ofDigitChars_codes]
    omega
  · have digits : wholeNumber ((Nat.toDigits 10 i.natAbs).map Char.toNat) =
        ((Nat.ofDigitChars 10 (((Nat.toDigits 10 i.natAbs).map Char.toNat).map Char.ofNat) 0 :
          Nat) : Int) := by
      unfold wholeNumber
      split
      case h_1 more eq =>
        have first := toDigits_codes (n := i.natAbs) 45 (by rw [eq]; exact List.mem_cons_self ..)
        exact absurd first.1 (by decide)
      case h_2 => rfl
    rw [if_neg negative, digits, ofDigitChars_codes]
    omega

/-- A target with strings in UTF-16 that end with zero, as C++ has it, and whole numbers only. -/
def wholeNumbers (eofIsZero : Bool) : Platform Int where
  encoding := .utf16
  hl := false
  eofIsZero := eofIsZero
  parseInt := fun _ => none
  nullInt := some 0
  parseFloat := wholeNumber
  int := id
  ofInt := id
  equal := fun f g => f == g
  isFinite := fun _ => true
  floatText := decimal

theorem wholeNumbers_exact (eofIsZero : Bool) : Exact (wholeNumbers eofIsZero) where
  parseFloat := fun i _ _ => wholeNumber_decimal i
  int := fun _ _ _ => rfl
  equal := fun i _ _ => beq_self_eq_true i

/-- A value with nested parts, an escape and a negative number. -/
def nested : Value Int :=
  .object [(ascii "a", .array [.null, .int (-45), .string (ascii "x\ny")]), (ascii "", .bool true)]

theorem nested_plain (eofIsZero : Bool) : Plain (wholeNumbers eofIsZero) nested :=
  ⟨by decide, ⟨⟨['a'], rfl⟩, trivial, ⟨by decide, by decide⟩, ⟨['x', '\n', 'y'], rfl⟩, trivial⟩,
    ⟨⟨[], rfl⟩, trivial⟩, trivial⟩

theorem nested_is_read_back :
    Settles (fun fuel => parse (wholeNumbers true)
      (print (wholeNumbers true) (some (ascii "  ")) nested) fuel) (.returned nested) :=
  (json_round_trips_iff (wholeNumbers true) (wholeNumbers_exact true) nested (nested_plain true)
    (some (ascii "  ")) (fun indent member => by
      obtain rfl := Option.some.inj member
      decide)).mpr (fun _ => by decide)

/-- The string of one zero is not closed when it is read back. -/
theorem zero_is_not_read_back :
    Exact (wholeNumbers true) ∧ Plain (wholeNumbers true) (.string [0]) ∧
      ¬ Settles (fun fuel => parse (wholeNumbers true)
        (print (wholeNumbers true) none (.string [0])) fuel) (.returned (.string [0])) := by
  have plain : Plain (wholeNumbers true) (.string [0]) := ⟨[Char.ofNat 0], rfl⟩
  have blank : Blank none := fun indent member => nomatch member
  have run : Settles (fun fuel => parse (wholeNumbers true)
      (print (wholeNumbers true) none (.string [0])) fuel)
      (unlessNul (wholeNumbers true) true (.string [0])) :=
    parse_print (wholeNumbers_exact true) blank plain
  rw [unlessNul_thrown rfl rfl] at run
  refine ⟨wholeNumbers_exact true, plain, fun returned => ?_⟩
  have same := Settles.unique returned run
  cases same

end Haxe.Guarantees.JsonRoundTrip

/-!
## What the JSON parser accepts

`JsonParser.parse` returns a value for the texts of the grammar of JSON with its own numbers and
strings, and with a zero behind the text where that is taken for the end. That is JSON for exactly
the texts in which something that is no JSON is accepted if and only if a number of JSON is refused.
-/

namespace Haxe.Guarantees.JsonParser

open Theory Theory.InterruptedRuns Source Source.Json
open Theory.JsonGrammar hiding Stops

variable {F : Type}

/-- The tokens of RFC 8259 in the strings of a target. -/
def json (p : Platform F) : Tokens := standard (Unescaped p.encoding)

/-- The tokens of either grammar. -/
def loose (p : Platform F) : Tokens := ⟨fun t => Number t ∨ LenientNumber t, LenientString p⟩

/-- What ends a text: nothing, or a zero where that is the end of a string. -/
def Ends (p : Platform F) (tail : List Nat) : Prop :=
  tail = [] ∨ (p.eofIsZero = true ∧ ∃ more, tail = 0 :: more)

/-- What is claimed of one text: it is accepted if and only if it is JSON, it is refused by a throw
otherwise, and a value that is returned has its elements and its members in their order. -/
structure AcceptsJson (p : Platform F) (str : List Nat) : Prop where
  accepted : (∃ v, Settles (parse p str) (.returned v)) ↔ Text (json p) str
  refused : (¬∃ v, Settles (parse p str) (.returned v)) → ∃ e, Settles (parse p str) (.thrown e)
  ordered : ∀ v, Settles (parse p str) (.returned v) →
    ∃ tree tail, Reads (lenient p) tree tail str ∧ Denotes p tree v

/-- Something that is no JSON is accepted if and only if a number of JSON is refused. -/
def Balanced (p : Platform F) (str : List Nat) : Prop :=
  ∀ tree tail, Reads (loose p) tree tail str → Ends p tail →
    ((tail ≠ [] ∨ ¬All (json p) tree) ↔ ¬All (lenient p) tree)

variable {p : Platform F} {str : List Nat}

section Numbers

theorem integer_first {int : List Nat} (integer : Integer int) :
    ∃ c more, int = c :: more ∧ Digit c ∧ ∀ x ∈ more, Digit x := by
  obtain rfl | ⟨d, more, rfl, first, all⟩ := integer
  · exact ⟨48, [], rfl, ⟨by decide, by decide⟩, List.forall_mem_nil _⟩
  · exact ⟨d, more, rfl, digit_of_positive first, all⟩

theorem digits_chars {ds : List Nat} (all : ∀ c ∈ ds, Digit c) : ∀ c ∈ ds, NumberChar c :=
  fun c member => Or.inl (all c member)

theorem exponent_chars {exp : List Nat} (exponent : Exponent exp) : ∀ c ∈ exp, NumberChar c := by
  obtain ⟨x, u, rfl, mark, digits | ⟨s, ds, rfl, sign, digits⟩⟩ := exponent
  · refine List.forall_mem_cons.mpr ⟨?_, digits_chars digits.2⟩
    unfold ExponentMark at mark
    unfold NumberChar
    omega
  · refine List.forall_mem_cons.mpr ⟨?_, List.forall_mem_cons.mpr ⟨?_, digits_chars digits.2⟩⟩
    · unfold ExponentMark at mark
      unfold NumberChar
      omega
    · unfold Sign at sign
      unfold NumberChar
      omega

theorem number_chars {t : List Nat} (number : Number t) : ∀ c ∈ t, NumberChar c := by
  obtain ⟨minus, int, frac, exp, signed, integer, fraction, exponent, rfl⟩ := number
  obtain ⟨c, more, rfl, first, all⟩ := integer_first integer
  simp only [List.mem_append]
  rintro x (member | member | member | member)
  · obtain rfl | rfl := signed
    · cases member
    · obtain rfl := List.mem_singleton.mp member
      unfold NumberChar Digit
      decide
  · exact digits_chars (List.forall_mem_cons.mpr ⟨first, all⟩) x member
  · obtain rfl | ⟨ds, rfl, digits⟩ := fraction
    · cases member
    · obtain rfl | member := List.mem_cons.mp member
      · unfold NumberChar Digit
        decide
      · exact digits_chars digits.2 x member
  · obtain rfl | exponent := exponent
    · cases member
    · exact exponent_chars exponent x member

theorem number_first {t : List Nat} (number : Number t) :
    ∃ c more, t = c :: more ∧ (Digit c ∨ c = 45) := by
  obtain ⟨minus, int, frac, exp, signed, integer, -, -, rfl⟩ := number
  obtain ⟨c, more, rfl, first, -⟩ := integer_first integer
  obtain rfl | rfl := signed
  · exact ⟨c, _, rfl, Or.inl first⟩
  · exact ⟨45, _, rfl, Or.inr rfl⟩

theorem loose_separate (p : Platform F) : (loose p).Separate where
  first := by
    rintro t (number | number)
    · exact number_first number
    · exact (lenient_separate p).first t number
  chars := by
    rintro t (number | number)
    · exact number_chars number
    · exact lenientNumber_chars number
  strings := fun t t' r r' first second same => lenient_unique first second same

end Numbers

section Texts

theorem trailing_returned {behind tail : List Nat} {pos : Nat} (v : Value F)
    (here : str.drop pos = behind ++ tail) (spaces : Spaces behind) (ends : Ends p tail) :
    Settles (fun fuel => trailing p str v fuel pos) (.returned v) := by
  induction behind generalizing pos with
  | nil =>
    have eof : p.isEof (p.fastCodeAt str pos) = true := by
      obtain rfl | ⟨zero, more, rfl⟩ := ends
      · exact eof_behind here
      · rw [fastCodeAt_of_drop here, eof_zero zero]
    refine Settles.done (fun m => ?_)
    rw [trailing]
    simp only [eof, ↓reduceIte]
  | cons c behind ih =>
    obtain ⟨space, spaces⟩ := List.forall_mem_cons.mp spaces
    have isSpace : isSpace c = true := (isSpace_iff c).mpr space
    refine Settles.succ (fun m => ?_) (ih (drop_cons here) spaces)
    rw [trailing, fastCodeAt_of_drop here]
    simp only [not_eof (fun _ => space_nonzero isSpace), Bool.false_eq_true, ↓reduceIte,
      Option.getD_some, isSpace]

theorem ends_of_trailing {fuel pos : Nat} {v v' : Value F}
    (read : trailing p str v fuel pos = .returned v') :
    v = v' ∧ ∃ behind tail, str.drop pos = behind ++ tail ∧ Spaces behind ∧ Ends p tail := by
  induction fuel generalizing pos with
  | zero => cases read
  | succ fuel ih =>
    rw [trailing] at read
    cases eof : p.isEof (p.fastCodeAt str pos) with
    | true =>
      simp only [eof, ↓reduceIte] at read
      refine ⟨Outcome.returned.inj read, [], str.drop pos, rfl, List.forall_mem_nil _, ?_⟩
      cases here : str.drop pos with
      | nil => exact Or.inl rfl
      | cons c rest =>
        rw [fastCodeAt_of_drop here] at eof
        unfold Platform.isEof at eof
        cases zero : p.eofIsZero with
        | true =>
          rw [zero] at eof
          simp only [↓reduceIte, beq_iff_eq, Option.some.injEq] at eof
          exact Or.inr ⟨zero, rest, by rw [eof]⟩
        | false =>
          rw [zero] at eof
          cases eof
    | false =>
      obtain ⟨c, rest, here, -⟩ := drop_of_not_eof eof
      simp only [eof, Bool.false_eq_true, ↓reduceIte] at read
      by_cases space : isSpace ((p.fastCodeAt str pos).getD 0) = true
      · rw [if_pos space] at read
        rw [fastCodeAt_of_drop here] at space
        obtain ⟨same, behind, tail, eq, spaces, ends⟩ := ih read
        refine ⟨same, c :: behind, tail, ?_, spaces_cons ((isSpace_iff c).mp space) spaces, ends⟩
        rw [here, ← drop_cons here, eq]
        rfl
      · rw [if_neg space] at read
        exact absurd read not_invalidChar

/-- A value, and what stands behind it. -/
theorem settles_parse {v : Value F} {end_ : Nat} {r : Reading (Value F)}
    (read : Settles (fun fuel => parseRec p str fuel 0) (.returned (v, end_)))
    (last : Settles (fun fuel => trailing p str v fuel end_) r) : Settles (parse p str) r := by
  obtain ⟨n, settled⟩ := read
  obtain ⟨n', settled'⟩ := last
  refine ⟨max n n', fun m more => ?_⟩
  have run : parseRec p str m 0 = .returned (v, end_) :=
    settled m (Nat.le_trans (Nat.le_max_left ..) more)
  show Outcome.bind (parseRec p str m 0) _ = _
  rw [run]
  exact settled' m (Nat.le_trans (Nat.le_max_right ..) more)

theorem parse_total : (∃ v, Settles (parse p str) (.returned v)) ∨
    ∃ e, Settles (parse p str) (.thrown e) := by
  obtain ⟨⟨v, end_⟩, read⟩ | ⟨e, n, settled⟩ := (totalAt p str 0).value
  · obtain ⟨v', last⟩ | ⟨e, last⟩ := total_trailing p str v end_
    · exact Or.inl ⟨v', settles_parse read last⟩
    · exact Or.inr ⟨e, settles_parse read last⟩
  · refine Or.inr ⟨e, n, fun m more => ?_⟩
    have run : parseRec p str m 0 = .thrown e := settled m more
    show Outcome.bind (parseRec p str m 0) _ = _
    rw [run]
    rfl

/-- A text that is read is one of the lenient grammar, and has the value that is returned. -/
theorem reads_of_parse {v : Value F} (returned : Settles (parse p str) (.returned v)) :
    ∃ tree tail, Reads (lenient p) tree tail str ∧ Ends p tail ∧ Denotes p tree v := by
  obtain ⟨n, settled⟩ := returned
  obtain ⟨⟨v', end_⟩, first, last⟩ := bind_returned (settled n (Nat.le_refl n))
  obtain ⟨ws, t, tree, rest, spaces, spells, all, denotes, here, rfl⟩ :=
    (sound p str n).value first
  obtain ⟨rfl, behind, tail, follows, spaces', ends⟩ := ends_of_trailing last
  have after : str.drop (0 + ws.length + t.length) = rest := drop_append (drop_append here)
  refine ⟨tree, tail, ⟨ws, t, behind, spaces, spells, spaces', all, ?_⟩, ends, denotes⟩
  rw [← follows, after]
  exact here

theorem ends_tail {tail : List Nat} (ends : Ends p tail) : Tail tail := by
  obtain rfl | ⟨-, more, rfl⟩ := ends
  · exact fun c member => nomatch member
  · intro c member
    obtain rfl := Option.some.inj member
    unfold NumberChar Digit Space
    decide

theorem parse_of_reads {tree : Tree} {tail : List Nat} (reads : Reads (lenient p) tree tail str)
    (ends : Ends p tail) : ∃ v, Settles (parse p str) (.returned v) := by
  obtain ⟨before, t, behind, spaces, spells, spaces', all, eq⟩ := reads
  have here : str.drop 0 = before ++ (t ++ (behind ++ tail)) := eq
  have inside := drop_append here
  have stops : Source.Json.Stops (behind ++ tail) := by
    rw [stops_iff]
    cases tail with
    | nil =>
      rw [List.append_nil]
      intro c member
      have space := spaces' c (List.mem_of_mem_head? member)
      unfold Space at space
      unfold NumberChar Digit
      omega
    | cons c tail => exact stops_spaces spaces' (ends_tail ends c rfl).1
  obtain ⟨v, read⟩ := parseRec_spells tree all spells inside stops
  refine ⟨v, settles_parse (parseRec_spaces here (spaces_isSpace spaces) read) ?_⟩
  exact trailing_returned v (drop_append inside) spaces' ends

theorem reads_mono {T T' : Tokens} {tree : Tree} {tail : List Nat}
    (numbers : ∀ t, T.number t → T'.number t) (strings : ∀ t, T.string t → T'.string t)
    (reads : Reads T tree tail str) : Reads T' tree tail str := by
  obtain ⟨before, t, behind, spaces, spells, spaces', all, eq⟩ := reads
  exact ⟨before, t, behind, spaces, spells, spaces', all_mono numbers strings tree all, eq⟩

theorem reads_all {T : Tokens} {tree : Tree} {tail : List Nat} (reads : Reads T tree tail str) :
    All T tree := by
  obtain ⟨-, -, -, -, -, -, all, -⟩ := reads
  exact all

theorem reads_with {T T' : Tokens} {tree : Tree} {tail : List Nat}
    (reads : Reads T tree tail str) (all : All T' tree) : Reads T' tree tail str := by
  obtain ⟨before, t, behind, spaces, spells, spaces', -, eq⟩ := reads
  exact ⟨before, t, behind, spaces, spells, spaces', all, eq⟩

theorem loose_of_lenient {tree : Tree} {tail : List Nat}
    (reads : Reads (lenient p) tree tail str) : Reads (loose p) tree tail str :=
  reads_mono (T := lenient p) (fun _ => Or.inr) (fun _ known => known) reads

theorem loose_of_json (hex : HexExact p) {tree : Tree} {tail : List Nat}
    (reads : Reads (json p) tree tail str) : Reads (loose p) tree tail str :=
  reads_mono (T := json p) (fun _ => Or.inl) (fun _ => lenient_standard hex) reads

end Texts

section Examples

/-- The value of a hexadecimal digit. -/
def hexValue (c : Nat) : Option Nat :=
  if 48 ≤ c ∧ c ≤ 57 then some (c - 48)
  else if 65 ≤ c ∧ c ≤ 70 then some (c - 55)
  else if 97 ≤ c ∧ c ≤ 102 then some (c - 87)
  else none

/-- The number of the hexadecimal digits in front. -/
def hexDigits (n : Nat) : List Nat → Nat
  | [] => n
  | c :: rest =>
    match hexValue c with
    | some d => hexDigits (16 * n + d) rest
    | none => n

/-- `Std.parseInt` behind "0x" -/
def hexNumber : List Nat → Option Nat
  | _ :: _ :: c :: rest => (hexValue c).map (fun d => hexDigits d rest)
  | _ => none

/-- JavaScript, for whole numbers. -/
def javaScript : Platform Int :=
  { JsonRoundTrip.wholeNumbers false with parseInt := hexNumber }

theorem javaScript_hex : HexExact javaScript := by
  intro us four hex
  cases us with
  | nil => cases four
  | cons c rest =>
    have digit := hex c (List.mem_cons_self ..)
    unfold HexDigit Digit at digit
    show ((hexValue c).map (fun d => hexDigits d rest)).isSome = true
    rw [Option.isSome_map]
    unfold hexValue
    repeat' split
    all_goals first
      | rfl
      | omega

end Examples

end Haxe.Guarantees.JsonParser

/-!
## The nesting of the JSON printer

`fieldsString` begins a level at the first field that is printed and ends it at the last field of
the list, which is skipped if it is a function. Each call of `write` restores the nesting exactly
if no object, map or instance has a function behind a field that is printed.
-/

namespace Haxe.Guarantees.JsonPrinter

open Source Source.Json

variable {F : Type}

theorem write_restores_iff (p : Platform F) (indent : List Nat) (v : Value F) :
    ((∀ w, Writes w v → ∀ s, (write p (some indent) w s).nind = s.nind) ∧
      print p (some indent) v = laidOut p (some indent) 0 v) ↔
    ∀ w, Writes w v → Closing w := by
  rw [← unclosed_eq_zero_iff]
  constructor
  · intro restored
    have written := write_nind p (some indent) v ⟨[], 0⟩
    rw [restored.1 v (.self v) ⟨[], 0⟩] at written
    omega
  · intro closed
    refine ⟨fun w writes s => ?_, print_laidOut closed⟩
    have inner := unclosed_le writes
    have written := write_nind p (some indent) w s
    omega

/-- Two objects, in which a function stands behind the field that is printed. -/
def twoMethods : Value Int :=
  .array [.object [(ascii "a", .bool true), (ascii "f", .function)],
    .object [(ascii "a", .bool true), (ascii "f", .function)]]

/-- The second object is indented by two levels, and so is the bracket that closes the array. -/
theorem method_goes_deeper :
    ¬ ((∀ w, Writes w twoMethods →
        ∀ s, (write (JsonRoundTrip.wholeNumbers false) (some [9]) w s).nind = s.nind) ∧
      print (JsonRoundTrip.wholeNumbers false) (some [9]) twoMethods =
        laidOut (JsonRoundTrip.wholeNumbers false) (some [9]) 0 twoMethods) ∧
    print (JsonRoundTrip.wholeNumbers false) (some [9]) twoMethods =
      ascii "[\n\t\x7b\n\t\t\"a\": true\x7d,\n\t\t\x7b\n\t\t\t\"a\": true\x7d\n\t\t]" := by
  refine ⟨fun restored => ?_, by decide⟩
  exact absurd (restored.1 twoMethods (.self _) ⟨[], 0⟩) (by decide)

end Haxe.Guarantees.JsonPrinter
