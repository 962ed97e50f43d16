import Haxe.Source.Std.JsonNumbers

/-!
# The strings that are read

The texts between two quotation marks that `parseString` goes through: control characters stand for
themselves, and four characters follow `\u` of which the target makes a number.
-/

namespace Haxe.Source.Json

open Theory Theory.InterruptedRuns Theory.JsonGrammar

variable {F : Type}

/-- The four characters behind `\u` have a number, or a null may stand for it. -/
def HasNumber (p : Platform F) (us : List Nat) : Prop :=
  (p.parseInt (ascii "0x" ++ us)).isSome = true ∨ p.nullInt.isSome = true

/-- What `parseString` goes through. -/
inductive LenientString (p : Platform F) : List Nat → Prop where
  | nil : LenientString p []
  | plain {c : Nat} {t : List Nat} (quote : c ≠ 34) (backslash : c ≠ 92)
      (narrow : p.encoding = .bytes → c < 128) (inside : p.eofIsZero = true → c ≠ 0)
      (rest : LenientString p t) : LenientString p (c :: t)
  | wide {c : Nat} {us t : List Nat} (bytes : p.encoding = .bytes) (above : 128 ≤ c)
      (length : us.length = skipped c) (rest : LenientString p t) :
      LenientString p (c :: (us ++ t))
  | escape {x : Nat} {t : List Nat} (other : x ≠ 117) (known : (escaped x).isSome = true)
      (rest : LenientString p t) : LenientString p (92 :: x :: t)
  | unicode {us t : List Nat} (four : us.length = 4) (number : HasNumber p us)
      (rest : LenientString p t) : LenientString p (92 :: 117 :: (us ++ t))

variable {p : Platform F} {str rest : List Nat} {pos : Nat}

section Forward

theorem stringLoop_end (s : StringState) (here : str.drop pos = 34 :: rest) (fuel : Nat) :
    stringLoop p str (fuel + 1) pos s =
      .returned (finishString p str (pos + 1) s, pos + 1) := by
  rw [stringLoop, fastCodeAt_of_drop here]
  exact if_pos rfl

theorem stringLoop_backslash (s : StringState) (here : str.drop pos = 92 :: rest) (fuel : Nat) :
    stringLoop p str (fuel + 1) pos s =
      (parseEscape p str (pos + 1) s).bind (fun r => stringLoop p str fuel r.2 r.1) := by
  rw [stringLoop, fastCodeAt_of_drop here]
  rfl

theorem parseEscape_short {x : Nat} (s : StringState) (here : str.drop pos = x :: rest)
    (other : x ≠ 117) (known : (escaped x).isSome = true) :
    ∃ s', parseEscape p str pos s = .returned (s', pos + 1) := by
  obtain ⟨c, meaning⟩ := Option.isSome_iff_exists.mp known
  have other' : x ≠ 'u'.toNat := other
  unfold parseEscape
  simp only [fastCodeAt_of_drop here, Option.some.injEq, Option.bind_some, meaning,
    if_neg other']
  exact ⟨_, rfl⟩

theorem parseEscape_unicode {us : List Nat} (s : StringState)
    (here : str.drop pos = 117 :: (us ++ rest)) (four : us.length = 4) (number : HasNumber p us) :
    ∃ s', parseEscape p str pos s = .returned (s', pos + 5) := by
  have part : substr str (pos + 1) 4 = us := by
    rw [← four]
    exact substr_of_drop (drop_cons here)
  obtain ⟨uc, value⟩ : ∃ uc, unicodeEscape p str (pos + 1) = .returned uc := by
    unfold unicodeEscape
    rw [part]
    cases parsed : p.parseInt (ascii "0x" ++ us) with
    | some uc => exact ⟨uc, rfl⟩
    | none =>
      obtain number | null := number
      · rw [parsed] at number
        cases number
      · obtain ⟨uc, eq⟩ := Option.isSome_iff_exists.mp null
        exact ⟨uc, by simp only [eq]⟩
  unfold parseEscape
  simp only [fastCodeAt_of_drop here, value]
  exact ⟨_, rfl⟩

theorem stringLoop_skip {c : Nat} (s : StringState) (here : str.drop pos = c :: rest)
    (bytes : p.encoding = .bytes) (above : 128 ≤ c) (fuel : Nat) :
    stringLoop p str (fuel + 1) pos s = stringLoop p str fuel (pos + 1 + skipped c) s := by
  have quote : c ≠ '"'.toNat := fun same => absurd above (by rw [same]; decide)
  have backslash : c ≠ '\\'.toNat := fun same => absurd above (by rw [same]; decide)
  rw [stringLoop, fastCodeAt_of_drop here]
  simp only [Option.some.injEq, Option.getD_some]
  rw [if_neg quote, if_neg backslash, if_pos ⟨bytes, above⟩]

/-- Each string that is lenient is read. -/
theorem stringLoop_lenient {t : List Nat} (lenient : LenientString p t) (s : StringState)
    (here : str.drop pos = t ++ 34 :: rest) :
    ∃ text, Settles (fun fuel => stringLoop p str fuel pos s)
      (.returned (text, pos + t.length + 1)) := by
  induction lenient generalizing pos s with
  | nil => exact ⟨_, Settles.done (stringLoop_end s here)⟩
  | plain quote backslash narrow inside _ ih =>
    obtain ⟨text, read⟩ := ih s (drop_cons here)
    rw [Nat.add_assoc pos, Nat.add_comm 1] at read
    exact ⟨text, Settles.succ (stringLoop_plain here quote backslash narrow inside) read⟩
  | @wide c us t bytes above length _ ih =>
    have behind : str.drop (pos + 1 + us.length) = t ++ 34 :: rest := by
      apply drop_append
      rw [← List.append_assoc]
      exact drop_cons here
    obtain ⟨text, read⟩ := ih s behind
    have end_ : pos + 1 + us.length + t.length + 1 = pos + (c :: (us ++ t)).length + 1 := by
      rw [List.length_cons, List.length_append]
      omega
    rw [end_, length] at read
    exact ⟨text, Settles.succ (stringLoop_skip s here bytes above) read⟩
  | @escape x t other known _ ih =>
    obtain ⟨s', parsed⟩ := parseEscape_short (p := p) s (drop_cons here) other known
    obtain ⟨text, read⟩ := ih s' (drop_cons (drop_cons here))
    have end_ : pos + 1 + 1 + t.length + 1 = pos + (92 :: x :: t).length + 1 := by
      rw [List.length_cons, List.length_cons]
      omega
    rw [end_] at read
    refine ⟨text, Settles.succ (fun fuel => ?_) read⟩
    rw [stringLoop_backslash s here, parsed]
    rfl
  | @unicode us t four number _ ih =>
    have inside : str.drop (pos + 1) = 117 :: (us ++ (t ++ 34 :: rest)) := by
      rw [← List.append_assoc]
      exact drop_cons here
    obtain ⟨s', parsed⟩ := parseEscape_unicode (p := p) s inside four number
    have behind : str.drop (pos + 1 + 5) = t ++ 34 :: rest := by
      have := drop_append (drop_cons inside)
      rw [four] at this
      exact this
    obtain ⟨text, read⟩ := ih s' behind
    have end_ : pos + 1 + 5 + t.length + 1 = pos + (92 :: 117 :: (us ++ t)).length + 1 := by
      rw [List.length_cons, List.length_cons, List.length_append, four]
      omega
    rw [end_] at read
    refine ⟨text, Settles.succ (fun fuel => ?_) read⟩
    rw [stringLoop_backslash s here, parsed]
    rfl

end Forward

section Backward

theorem drop_of_fastCodeAt {c : Nat} (found : p.fastCodeAt str pos = some c)
    (inside : p.eofIsZero = true → c ≠ 0) : ∃ rest, str.drop pos = c :: rest := by
  cases here : str.drop pos with
  | nil =>
    rw [fastCodeAt_end here] at found
    split at found
    case isTrue zero => exact absurd (Option.some.inj found).symm (inside zero)
    case isFalse => cases found
  | cons c' rest =>
    rw [fastCodeAt_of_drop here] at found
    exact ⟨rest, by rw [Option.some.inj found]⟩

/-- A part of the string in front of a position that is inside. -/
theorem split_drop {len : Nat} {tail : List Nat} (tail_ne : tail ≠ [])
    (behind : str.drop (pos + len) = tail) :
    ∃ us, us.length = len ∧ str.drop pos = us ++ tail := by
  refine ⟨(str.drop pos).take len, ?_, ?_⟩
  · have inside : pos + len < str.length := by
      by_contra outside
      rw [List.drop_of_length_le (Nat.not_lt.mp outside)] at behind
      exact tail_ne behind.symm
    rw [List.length_take, List.length_drop]
    omega
  · rw [← behind, ← List.drop_drop, List.take_append_drop]

theorem drop_of_not_eof (inside : p.isEof (p.fastCodeAt str pos) = false) :
    ∃ c rest, str.drop pos = c :: rest ∧ (p.eofIsZero = true → c ≠ 0) := by
  cases here : str.drop pos with
  | nil =>
    rw [fastCodeAt_end here] at inside
    unfold Platform.isEof at inside
    cases zero : p.eofIsZero <;> simp [zero] at inside
  | cons c rest =>
    refine ⟨c, rest, rfl, ?_⟩
    rintro zero rfl
    rw [fastCodeAt_of_drop here, eof_zero zero] at inside
    cases inside

/-- What an escape sequence is when it is read. -/
theorem parseEscape_cases {s s' : StringState} {behind : Nat}
    (parsed : parseEscape p str pos s = .returned (s', behind)) :
    (∃ x rest, str.drop pos = x :: rest ∧ x ≠ 117 ∧ (escaped x).isSome = true ∧
      behind = pos + 1) ∨
      ∃ rest, str.drop pos = 117 :: rest ∧ HasNumber p (rest.take 4) ∧ behind = pos + 5 := by
  unfold parseEscape at parsed
  by_cases u : p.fastCodeAt str pos = some 'u'.toNat
  · obtain ⟨rest, here⟩ := drop_of_fastCodeAt u (fun _ => by decide)
    refine Or.inr ⟨rest, here, ?_⟩
    simp only [u, ↓reduceIte] at parsed
    have part : substr str (pos + 1) 4 = rest.take 4 := by
      unfold substr
      rw [drop_cons here]
    cases value : unicodeEscape p str (pos + 1) with
    | returned uc =>
      rw [value] at parsed
      obtain ⟨-, rfl⟩ := Prod.mk.inj (Outcome.returned.inj parsed)
      refine ⟨?_, rfl⟩
      unfold unicodeEscape at value
      rw [part] at value
      unfold HasNumber
      cases number : p.parseInt (ascii "0x" ++ rest.take 4) with
      | some uc => exact Or.inl rfl
      | none =>
        rw [number] at value
        cases null : p.nullInt with
        | some uc => exact Or.inr rfl
        | none =>
          rw [null] at value
          cases value
    | thrown e =>
      rw [value] at parsed
      cases parsed
    | exhausted =>
      rw [value] at parsed
      cases parsed
  · simp only [u, ↓reduceIte] at parsed
    cases meaning : (p.fastCodeAt str pos).bind escaped with
    | none =>
      rw [meaning] at parsed
      cases parsed
    | some c =>
      rw [meaning] at parsed
      obtain ⟨-, rfl⟩ := Prod.mk.inj (Outcome.returned.inj parsed)
      obtain ⟨x, found, known⟩ := Option.bind_eq_some_iff.mp meaning
      have nonzero : x ≠ 0 := by
        rintro rfl
        have unknown : escaped 0 = none := by decide
        rw [unknown] at known
        cases known
      obtain ⟨rest, here⟩ := drop_of_fastCodeAt found (fun _ => nonzero)
      refine Or.inl ⟨x, rest, here, ?_, by rw [known]; rfl, rfl⟩
      rintro rfl
      exact u found

/-- Where a string is read, it is lenient and closed. -/
theorem lenient_of_stringLoop {fuel : Nat} {s : StringState} {text : List Nat} {end_ : Nat}
    (read : stringLoop p str fuel pos s = .returned (text, end_)) :
    ∃ t rest, LenientString p t ∧ str.drop pos = t ++ 34 :: rest ∧ end_ = pos + t.length + 1 := by
  induction fuel generalizing pos s with
  | zero => cases read
  | succ fuel ih =>
    rw [stringLoop] at read
    by_cases quote : p.fastCodeAt str pos = some '"'.toNat
    · rw [if_pos quote] at read
      obtain ⟨rest, here⟩ := drop_of_fastCodeAt quote (fun _ => by decide)
      obtain ⟨-, rfl⟩ := Prod.mk.inj (Outcome.returned.inj read)
      exact ⟨[], rest, .nil, here, rfl⟩
    rw [if_neg quote] at read
    by_cases backslash : p.fastCodeAt str pos = some '\\'.toNat
    · rw [if_pos backslash] at read
      obtain ⟨tail, here⟩ := drop_of_fastCodeAt backslash (fun _ => by decide)
      cases parsed : parseEscape p str (pos + 1) s with
      | returned r =>
        rw [parsed] at read
        obtain ⟨t, rest, lenient, behind, rfl⟩ := ih read
        obtain ⟨x, tail', here', other, known, eq⟩ | ⟨tail', here', number, eq⟩ :=
          parseEscape_cases parsed
        · rw [eq, drop_cons here'] at behind
          refine ⟨92 :: x :: t, rest, .escape other known lenient, ?_, ?_⟩
          · rw [here, ← drop_cons here, here', behind]
            rfl
          · rw [eq, List.length_cons, List.length_cons]
            omega
        · have later : str.drop (pos + 1 + 1 + 4) = t ++ 34 :: rest := by
            rw [← behind, eq]
          obtain ⟨us, four, split⟩ := split_drop (by simp) later
          have first : tail'.take 4 = us := by
            rw [← drop_cons here', split, ← four, List.take_left]
          rw [first] at number
          refine ⟨92 :: 117 :: (us ++ t), rest, .unicode four number lenient, ?_, ?_⟩
          · rw [here, ← drop_cons here, here', ← drop_cons here', split]
            simp
          · rw [eq, List.length_cons, List.length_cons, List.length_append, four]
            omega
      | thrown e =>
        rw [parsed] at read
        cases read
      | exhausted =>
        rw [parsed] at read
        cases read
    rw [if_neg backslash] at read
    by_cases wide : p.encoding = .bytes ∧ 0x80 ≤ (p.fastCodeAt str pos).getD 0
    · rw [if_pos wide] at read
      obtain ⟨t, rest, lenient, behind, rfl⟩ := ih read
      cases found : p.fastCodeAt str pos with
      | none =>
        rw [found] at wide
        exact absurd wide.2 (by decide)
      | some c =>
        rw [found] at wide behind
        have above : 128 ≤ c := wide.2
        obtain ⟨tail, here⟩ := drop_of_fastCodeAt found (fun _ => by omega)
        obtain ⟨us, length, split⟩ := split_drop (by simp) behind
        refine ⟨c :: (us ++ t), rest, .wide wide.1 above length lenient, ?_, ?_⟩
        · rw [here, ← drop_cons here, split]
          simp
        · rw [← length, List.length_cons, List.length_append]
          omega
    rw [if_neg wide] at read
    cases eof : p.isEof (p.fastCodeAt str pos) with
    | true =>
      rw [eof] at read
      cases read
    | false =>
      rw [eof] at read
      obtain ⟨c, tail, here, inside⟩ := drop_of_not_eof eof
      obtain ⟨t, rest, lenient, behind, rfl⟩ := ih read
      rw [fastCodeAt_of_drop here] at quote backslash wide
      have narrow : p.encoding = .bytes → c < 128 :=
        fun bytes => Nat.not_le.mp (fun above => wide ⟨bytes, above⟩)
      refine ⟨c :: t, rest, .plain (fun same => quote (by rw [same]; rfl))
        (fun same => backslash (by rw [same]; rfl)) narrow inside lenient, ?_, ?_⟩
      · rw [here, ← drop_cons here, behind]
        rfl
      · rw [List.length_cons]
        omega

end Backward

section Standard

/-- A string ends at one quotation mark only. -/
theorem lenient_unique {t t' r r' : List Nat} (lenient : LenientString p t)
    (lenient' : LenientString p t') (same : t ++ 34 :: r = t' ++ 34 :: r') : t = t' := by
  induction lenient generalizing t' with
  | nil =>
    cases lenient' with
    | nil => rfl
    | plain quote => exact absurd (List.cons.inj same).1.symm quote
    | wide _ above => exact absurd (List.cons.inj same).1 (by omega)
    | escape => exact absurd (List.cons.inj same).1 (by decide)
    | unicode => exact absurd (List.cons.inj same).1 (by decide)
  | @plain c t quote backslash narrow _ _ ih =>
    cases lenient' with
    | nil => exact absurd (List.cons.inj same).1 quote
    | plain _ _ _ _ rest' =>
      obtain ⟨rfl, tails⟩ := List.cons.inj same
      rw [ih rest' tails]
    | wide bytes above =>
      obtain ⟨rfl, -⟩ := List.cons.inj same
      exact absurd (narrow bytes) (Nat.not_lt.mpr above)
    | escape => exact absurd (List.cons.inj same).1 backslash
    | unicode => exact absurd (List.cons.inj same).1 backslash
  | @wide c us t bytes above length _ ih =>
    cases lenient' with
    | nil => exact absurd (List.cons.inj same).1 (by omega)
    | plain _ _ narrow =>
      obtain ⟨rfl, -⟩ := List.cons.inj same
      exact absurd (narrow bytes) (Nat.not_lt.mpr above)
    | wide _ _ length' rest' =>
      obtain ⟨rfl, tails⟩ := List.cons.inj same
      change us ++ t ++ _ = _ ++ _ ++ _ at tails
      rw [List.append_assoc, List.append_assoc] at tails
      obtain ⟨rfl, ends⟩ := List.append_inj tails (length.trans length'.symm)
      rw [ih rest' ends]
    | escape => exact absurd (List.cons.inj same).1 (by omega)
    | unicode => exact absurd (List.cons.inj same).1 (by omega)
  | @escape x t other _ _ ih =>
    cases lenient' with
    | nil => exact absurd (List.cons.inj same).1 (by decide)
    | plain _ backslash => exact absurd (List.cons.inj same).1.symm backslash
    | wide _ above => exact absurd (List.cons.inj same).1 (by omega)
    | escape _ _ rest' =>
      obtain ⟨rfl, tails⟩ := List.cons.inj (List.cons.inj same).2
      rw [ih rest' tails]
    | unicode => exact absurd (List.cons.inj (List.cons.inj same).2).1 other
  | @unicode us t four _ _ ih =>
    cases lenient' with
    | nil => exact absurd (List.cons.inj same).1 (by decide)
    | plain _ backslash => exact absurd (List.cons.inj same).1.symm backslash
    | wide _ above => exact absurd (List.cons.inj same).1 (by omega)
    | escape other => exact absurd (List.cons.inj (List.cons.inj same).2).1.symm other
    | unicode four' _ rest' =>
      have tails := (List.cons.inj (List.cons.inj same).2).2
      change us ++ t ++ _ = _ ++ _ ++ _ at tails
      rw [List.append_assoc, List.append_assoc] at tails
      obtain ⟨rfl, ends⟩ := List.append_inj tails (four.trans four'.symm)
      rw [ih rest' ends]

/-- The code units of an unescaped character of RFC 8259. -/
def Unescaped (e : Encoding) (us : List Nat) : Prop :=
  match e with
  | .bytes =>
    (∃ c, us = [c] ∧ 32 ≤ c ∧ c < 128 ∧ c ≠ 34 ∧ c ≠ 92) ∨
      ∃ c : Char, 128 ≤ c.toNat ∧ us = Utf8.bytes c
  | _ => ∃ c, us = [c] ∧ 32 ≤ c ∧ c ≠ 34 ∧ c ≠ 92

/-- `Std.parseInt` knows four hexadecimal digits. -/
def HexExact (p : Platform F) : Prop :=
  ∀ us : List Nat, us.length = 4 → (∀ c ∈ us, HexDigit c) →
    (p.parseInt (ascii "0x" ++ us)).isSome = true

theorem lenient_unescaped {us t : List Nat} (known : Unescaped p.encoding us)
    (rest : LenientString p t) : LenientString p (us ++ t) := by
  unfold Unescaped at known
  cases e : p.encoding with
  | bytes =>
    rw [e] at known
    obtain ⟨c, rfl, lower, narrow, quote, backslash⟩ | ⟨c, wide, rfl⟩ := known
    · exact .plain quote backslash (fun _ => narrow) (fun _ => by omega) rest
    · obtain ⟨b, more, eq, leading, bound, length, -⟩ :=
        Utf8.bytes_leading wide (Utf16.toNat_lt c)
      rw [eq]
      exact .wide e (by omega) (length.trans (skipped_following leading bound).symm) rest
  | _ =>
    rw [e] at known
    obtain ⟨c, rfl, lower, quote, backslash⟩ := known
    exact .plain quote backslash (fun same => by rw [e] at same; cases same) (fun _ => by omega)
      rest

/-- The strings of RFC 8259 are read. -/
theorem lenient_standard (hex : HexExact p) {t : List Nat}
    (standard : StringText (Unescaped p.encoding) t) : LenientString p t := by
  induction standard with
  | nil => exact .nil
  | plain known _ ih => exact lenient_unescaped known ih
  | @escape x t known _ ih =>
    have all : ∀ x ∈ [34, 92, 47, 98, 102, 110, 114, 116],
        x ≠ 117 ∧ (escaped x).isSome = true := by decide
    exact .escape (all x known).1 (all x known).2 ih
  | unicode four digits _ ih => exact .unicode four (Or.inl (hex _ four digits)) ih

end Standard

end Haxe.Source.Json

/-!
## The texts that are read

`JsonParser` returns a value for the texts of the grammar of JSON with the lenient numbers and
strings, in front of the end of the text or of a zero that is taken for it, and throws for any other
text.
-/

namespace Haxe.Source.Json

open Theory Theory.InterruptedRuns
open Theory.JsonGrammar hiding Stops

variable {F : Type}

/-- The tokens that are read. -/
def lenient (p : Platform F) : Tokens := ⟨LenientNumber, LenientString p⟩

variable {p : Platform F} {str rest : List Nat} {pos : Nat}

section Calls

/-- A call that returns, and what goes on behind it. -/
theorem settles_then {α β : Type} {f : Nat → Reading α} {whole : Nat → Reading β}
    {k : Nat → α → Reading β} {a : α} {r : Reading β} (first : Settles f (.returned a))
    (unfolds : ∀ m, whole (m + 1) = (f m).bind (k m)) (second : Settles (fun m => k m a) r) :
    Settles whole r := by
  apply Settles.step₂ first second
  intro m run run'
  rw [unfolds, run]
  exact run'

theorem isSpace_iff (c : Nat) : isSpace c = true ↔ Space c := by
  unfold isSpace Space
  simp only [Bool.or_eq_true, beq_iff_eq]
  show ((c = 32 ∨ c = 13) ∨ c = 10) ∨ c = 9 ↔ _
  omega

theorem spaces_isSpace {ws : List Nat} (spaces : Spaces ws) : ∀ c ∈ ws, isSpace c = true :=
  fun c member => (isSpace_iff c).mpr (spaces c member)

theorem starts_of_spells {T : Tokens} (separate : T.Separate) {tree : Tree} {t : List Nat}
    (all : All T tree) (spells : Spells tree t) : ∃ c more, t = c :: more ∧ Starts c := by
  obtain ⟨c, more, eq, -, other, bracket, -, comma⟩ := spells_first separate all spells
  refine ⟨c, more, eq, Bool.eq_false_iff.mpr ?_, bracket, comma⟩
  exact fun space => other ((isSpace_iff c).mp space)

theorem stops_iff (rest : List Nat) : Stops rest ↔ JsonGrammar.Stops rest := by
  unfold Stops JsonGrammar.Stops
  simp only [endsNumber_iff]

end Calls

section Tokens

theorem run_chars {s s' : NumberState} {t : List Nat} (run : s.run t = some s') :
    ∀ c ∈ t, NumberChar c := by
  induction t generalizing s with
  | nil => exact List.forall_mem_nil _
  | cons c t ih =>
    rw [NumberState.run] at run
    cases step : s.step (some c) with
    | next s'' =>
      rw [step] at run
      refine List.forall_mem_cons.mpr ⟨?_, ih run⟩
      by_contra other
      exact stuck_other s other s'' step
    | invalid =>
      rw [step] at run
      cases run
    | last =>
      rw [step] at run
      cases run

theorem lenientNumber_cons {t : List Nat} (number : LenientNumber t) :
    ∃ c more, t = c :: more ∧ isNumberStart c = true ∧ (firstNumberState c).Accepts more := by
  cases t with
  | nil =>
    obtain (⟨more, eq, -⟩ | ⟨d, more, eq, -⟩) | ⟨u, eq, -⟩ := number
    all_goals cases eq
  | cons c more => exact ⟨c, more, rfl, (accepts_iff c more).mpr number⟩

theorem isNumberStart_iff (c : Nat) : isNumberStart c = true ↔ Digit c ∨ c = 45 := by
  unfold isNumberStart Digit
  rw [Bool.or_eq_true, Bool.and_eq_true, decide_eq_true_eq, decide_eq_true_eq, beq_iff_eq]
  rfl

theorem lenientNumber_chars {t : List Nat} (number : LenientNumber t) :
    ∀ c ∈ t, NumberChar c := by
  obtain ⟨c, more, rfl, start, s, run, -⟩ := lenientNumber_cons number
  refine List.forall_mem_cons.mpr ⟨?_, run_chars run⟩
  obtain digit | minus := (isNumberStart_iff c).mp start
  · exact Or.inl digit
  · unfold NumberChar
    omega

theorem lenient_separate (p : Platform F) : (lenient p).Separate where
  first := by
    intro t number
    obtain ⟨c, more, eq, start, -⟩ := lenientNumber_cons number
    exact ⟨c, more, eq, (isNumberStart_iff c).mp start⟩
  chars := fun t number => lenientNumber_chars number
  strings := fun t t' r r' first second same => lenient_unique first second same

/-- The loop over a number. -/
theorem numberLoop_run {start : Nat} {s s' : NumberState} {t : List Nat}
    (here : str.drop pos = t ++ rest) (stops : Stops rest) (run : s.run t = some s')
    (digit : s'.digit = true) :
    Settles (fun fuel => numberLoop p str start fuel pos s) (.returned (s', pos + t.length)) := by
  induction t generalizing pos s with
  | nil =>
    cases run
    exact Settles.done (numberLoop_last here stops digit)
  | cons c t ih =>
    rw [NumberState.run] at run
    cases step : s.step (some c) with
    | next s'' =>
      rw [step] at run
      have tail := ih (drop_cons here) run
      rw [Nat.add_assoc, Nat.add_comm 1] at tail
      refine Settles.succ (fun fuel => ?_) tail
      rw [numberLoop, fastCodeAt_of_drop here, step]
    | invalid =>
      rw [step] at run
      cases run
    | last =>
      rw [step] at run
      cases run

theorem parseNumber_lenient {c : Nat} {t : List Nat} (here : str.drop pos = c :: (t ++ rest))
    (stops : Stops rest) (accepts : (firstNumberState c).Accepts t) :
    ∃ v, Settles (fun fuel => parseNumber p str fuel (pos + 1) c)
      (.returned (v, pos + 1 + t.length)) := by
  obtain ⟨s, run, digit⟩ := accepts
  exact ⟨_, parseNumber_settles (numberLoop_run (drop_cons here) stops run digit) rfl⟩

end Tokens

section Complete

mutual

/-- Each text of the grammar is read. -/
theorem parseRec_spells (tree : Tree) {t : List Nat} {pos : Nat} {rest : List Nat}
    (all : All (lenient p) tree) (spells : Spells tree t) (here : str.drop pos = t ++ rest)
    (stops : Stops rest) :
    ∃ v, Settles (fun fuel => parseRec p str fuel pos) (.returned (v, pos + t.length)) := by
  cases tree with
  | literal word =>
    obtain rfl : t = word := spells
    unfold All words at all
    simp only [List.mem_cons, List.not_mem_nil, or_false] at all
    obtain rfl | rfl | rfl := all
    · exact ⟨_, Settles.done (parseRec_true here)⟩
    · exact ⟨_, Settles.done (parseRec_false here)⟩
    · exact ⟨_, Settles.done (parseRec_null here)⟩
  | number text =>
    obtain rfl : t = text := spells
    obtain ⟨c, more, rfl, start, accepts⟩ := lenientNumber_cons all
    obtain ⟨v, read⟩ := parseNumber_lenient (p := p) here stops accepts
    refine ⟨v, Settles.succ (parseRec_number here start) ?_⟩
    rw [List.length_cons, Nat.add_comm more.length, ← Nat.add_assoc]
    exact read
  | string text =>
    obtain rfl : t = 34 :: text ++ [34] := spells
    rw [List.append_assoc] at here
    obtain ⟨s, read⟩ := stringLoop_lenient all ⟨pos + 1, none, none⟩ (drop_cons here)
    have end_ : pos + 1 + text.length + 1 = pos + (34 :: text ++ [34]).length := by
      rw [List.length_append, List.length_cons, List.length_singleton]
      omega
    rw [end_] at read
    refine ⟨.string s, Settles.step read (fun m run => ?_)⟩
    rw [parseRec_quote here]
    unfold parseString
    rw [run]
    rfl
  | array items =>
    obtain ⟨inner, spelled, rfl⟩ := spells
    rw [List.append_assoc] at here
    obtain ⟨v, read⟩ := parseArray_spells items [] none all spelled (drop_cons here)
      (by decide) (fun _ => by decide)
    have end_ : pos + 1 + inner.length + 1 = pos + (91 :: inner ++ [93]).length := by
      rw [List.length_append, List.length_cons, List.length_singleton]
      omega
    rw [end_] at read
    exact ⟨v, Settles.succ (parseRec_bracket here) read⟩
  | object members =>
    obtain ⟨inner, spelled, rfl⟩ := spells
    rw [List.append_assoc] at here
    obtain ⟨v, read⟩ := parseObject_spells members [] none all spelled (drop_cons here)
      (by decide) (fun _ => by decide)
    have end_ : pos + 1 + inner.length + 1 = pos + (123 :: inner ++ [125]).length := by
      rw [List.length_append, List.length_cons, List.length_singleton]
      omega
    rw [end_] at read
    exact ⟨v, Settles.succ (parseRec_brace here) read⟩

theorem parseArray_spells (items : List Tree) {s : List Nat} {pos : Nat} {rest : List Nat}
    (arr : List (Value F)) (comma : Option Bool) (all : AllItems (lenient p) items)
    (spells : SpellsItems items s) (here : str.drop pos = s ++ 93 :: rest)
    (expected : comma ≠ some true) (complete : items = [] → comma ≠ some false) :
    ∃ v, Settles (fun fuel => parseArray p str fuel pos arr comma)
      (.returned (v, pos + s.length + 1)) := by
  cases items with
  | nil =>
    refine ⟨.array arr, ?_⟩
    apply parseArray_spaces here (spaces_isSpace spells)
    exact Settles.done (parseArray_close (drop_append here) (complete rfl))
  | cons v rest' =>
    obtain ⟨before, t, behind, more, spaces, spelled, spacesBehind, closes, rfl⟩ := spells
    simp only [List.append_assoc] at here
    obtain ⟨c, others, first, starts⟩ := starts_of_spells (lenient_separate p) all.1 spelled
    have inside := drop_append here
    obtain ⟨x, item⟩ := parseRec_spells v all.1 spelled inside
      ((stops_iff _).mpr (stops_closes spacesBehind closes closers.1.2.2))
    have after := drop_append inside
    have mark := drop_append after
    have other : ∃ y, Settles (fun fuel => parseArray p str fuel
        (pos + before.length + t.length) (arr ++ [x]) (some true))
        (.returned (y, pos + (before ++ (t ++ (behind ++ more))).length + 1)) := by
      obtain ⟨-, rfl, eq⟩ | ⟨nonempty, others, spelled', rfl, eq⟩ := closes_cases closes 93 rest
      · rw [eq] at mark
        refine ⟨.array (arr ++ [x]), ?_⟩
        apply parseArray_spaces after (spaces_isSpace spacesBehind)
        have end_ : pos + (before ++ (t ++ (behind ++ []))).length + 1 =
            pos + before.length + t.length + behind.length + 1 := by
          simp only [List.length_append, List.length_nil]
          omega
        rw [end_]
        exact Settles.done (parseArray_close mark (by decide))
      · rw [eq] at mark
        obtain ⟨y, tail⟩ := parseArray_spells rest' (arr ++ [x]) (some false) all.2 spelled'
          (drop_cons mark) (by decide) (fun empty => absurd empty nonempty)
        refine ⟨y, ?_⟩
        apply parseArray_spaces after (spaces_isSpace spacesBehind)
        have end_ : pos + (before ++ (t ++ (behind ++ 44 :: others))).length + 1 =
            pos + before.length + t.length + behind.length + 1 + others.length + 1 := by
          simp only [List.length_append, List.length_cons]
          omega
        rw [end_]
        exact Settles.succ (parseArray_comma mark) tail
    obtain ⟨y, other⟩ := other
    refine ⟨y, ?_⟩
    apply parseArray_spaces here (spaces_isSpace spaces)
    rw [first] at inside
    exact settles_then item (parseArray_item inside starts expected) other

theorem parseObject_spells (members : List (List Nat × Tree)) {s : List Nat} {pos : Nat}
    {rest : List Nat} (obj : List (List Nat × Value F)) (comma : Option Bool)
    (all : AllMembers (lenient p) members) (spells : SpellsMembers members s)
    (here : str.drop pos = s ++ 125 :: rest) (expected : comma ≠ some true)
    (complete : members = [] → comma ≠ some false) :
    ∃ v, Settles (fun fuel => parseObject p str fuel pos obj none comma)
      (.returned (v, pos + s.length + 1)) := by
  cases members with
  | nil =>
    refine ⟨.object obj, ?_⟩
    apply parseObject_spaces here (spaces_isSpace spells)
    exact Settles.done (parseObject_close (drop_append here) (complete rfl))
  | cons member rest' =>
    obtain ⟨name, v⟩ := member
    obtain ⟨before, gap, pad, t, behind, more, spaces, spacesGap, spacesPad, spelled,
      spacesBehind, closes, rfl⟩ := spells
    simp only [List.append_assoc, List.cons_append] at here
    have mark := drop_append here
    obtain ⟨text, nameRead⟩ := stringLoop_lenient all.1.1
      ⟨pos + before.length + 1, none, none⟩ (drop_cons mark)
    have named := drop_append (drop_cons mark)
    have colon := drop_append (drop_cons named)
    have inside := drop_append (drop_cons colon)
    obtain ⟨x, value⟩ := parseRec_spells v all.1.2 spelled inside
      ((stops_iff _).mpr (stops_closes spacesBehind closes closers.2.2.2))
    have after := drop_append inside
    have closing := drop_append after
    have end_ : pos + (before ++ (34 :: (name ++ (34 :: (gap ++ (58 :: (pad ++
        (t ++ (behind ++ more))))))))).length + 1 =
        pos + before.length + 1 + name.length + 1 + gap.length + 1 + pad.length + t.length +
          behind.length + more.length + 1 := by
      simp only [List.length_append, List.length_cons]
      omega
    rw [end_]
    have other : ∃ y, Settles (fun fuel => parseObject p str fuel
        (pos + before.length + 1 + name.length + 1 + gap.length + 1 + pad.length + t.length)
        (setField obj text x) none (some true))
        (.returned (y, pos + before.length + 1 + name.length + 1 + gap.length + 1 + pad.length +
          t.length + behind.length + more.length + 1)) := by
      obtain ⟨-, rfl, eq⟩ | ⟨nonempty, others, spelled', rfl, eq⟩ := closes_cases closes 125 rest
      · rw [eq] at closing
        refine ⟨.object (setField obj text x), ?_⟩
        apply parseObject_spaces after (spaces_isSpace spacesBehind)
        exact Settles.done (parseObject_close closing (by decide))
      · rw [eq] at closing
        obtain ⟨y, tail⟩ := parseObject_spells rest' (setField obj text x) (some false) all.2
          spelled' (drop_cons closing) (by decide) (fun empty => absurd empty nonempty)
        refine ⟨y, ?_⟩
        apply parseObject_spaces after (spaces_isSpace spacesBehind)
        rw [List.length_cons, Nat.add_comm others.length, ← Nat.add_assoc]
        exact Settles.succ (parseObject_comma closing) tail
    obtain ⟨y, other⟩ := other
    refine ⟨y, ?_⟩
    apply parseObject_spaces here (spaces_isSpace spaces)
    refine settles_then nameRead (parseObject_name mark expected) ?_
    apply parseObject_spaces (drop_cons named) (spaces_isSpace spacesGap)
    have valueRead := parseRec_spaces (drop_cons colon) (spaces_isSpace spacesPad) value
    exact settles_then valueRead (parseObject_colon colon) other

end

end Complete

end Haxe.Source.Json
