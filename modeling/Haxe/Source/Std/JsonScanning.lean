import Haxe.Theory.Fuel
import Haxe.Source.Std.JsonParser

/-!
# Reading what is printed: strings and numbers

`parseString` behind the opening quote of what `quote` writes, and `parseNumber` on what an `Int`
is printed as.
-/

namespace Haxe.Source.Json

open Theory Theory.InterruptedRuns

variable {F : Type} {p : Platform F} {str rest : List Nat} {pos : Nat}

section Positions

theorem fastCodeAt_of_drop {c : Nat} (here : str.drop pos = c :: rest) :
    p.fastCodeAt str pos = some c := by
  unfold Platform.fastCodeAt
  have found : str[pos]? = some c := by
    rw [← List.head?_drop, here]
    rfl
  rw [found]

theorem fastCodeAt_end (here : str.drop pos = []) :
    p.fastCodeAt str pos = if p.eofIsZero then some 0 else none := by
  unfold Platform.fastCodeAt
  have found : str[pos]? = none := by
    rw [← List.head?_drop, here]
    rfl
  rw [found]

/-- The end of the string is no other character. -/
theorem not_eof {c : Nat} (other : p.eofIsZero = true → c ≠ 0) : p.isEof (some c) = false := by
  unfold Platform.isEof
  cases zero : p.eofIsZero with
  | false => rfl
  | true =>
    have := other zero
    simp [this]

theorem eof_zero (zero : p.eofIsZero = true) : p.isEof (some 0) = true := by
  unfold Platform.isEof
  rw [if_pos zero]
  rfl

end Positions

section Strings

/-- What has been read of a string in front of a position. -/
def StringState.content (s : StringState) (str : List Nat) (pos : Nat) : List Nat :=
  s.buf.getD [] ++ substr str s.start (pos - s.start)

/-- No surrogate waits for another one. -/
structure StringState.Even (s : StringState) (pos : Nat) : Prop where
  start_le : s.start ≤ pos
  prev : s.prev = none

theorem StringState.cancelPrev_even {s : StringState} (even : s.Even pos) : s.cancelPrev p = s := by
  unfold cancelPrev
  rw [even.prev]
  rfl

theorem finishString_eq {s : StringState} (even : s.Even pos) :
    finishString p str (pos + 1) s = s.content str pos := by
  have length : pos + 1 - s.start - 1 = pos - s.start := by
    rw [Nat.sub_right_comm, Nat.add_sub_cancel]
  unfold finishString StringState.content
  simp only [StringState.cancelPrev_even even, length]
  cases s.buf with
  | none => rfl
  | some buf => rfl

theorem StringState.content_append {s : StringState} {text : List Nat} (even : s.Even pos)
    (here : str.drop pos = text ++ rest) :
    s.content str (pos + text.length) = s.content str pos ++ text := by
  unfold content
  rw [substr_append here even.start_le, List.append_assoc]

theorem StringState.Even.add {s : StringState} (even : s.Even pos) (n : Nat) :
    s.Even (pos + n) :=
  ⟨Nat.le_trans even.start_le (Nat.le_add_right _ _), even.prev⟩

/-- The end of a string. -/
theorem stringLoop_quote {s : StringState} (even : s.Even pos)
    (here : str.drop pos = '"'.toNat :: rest) (fuel : Nat) :
    stringLoop p str (fuel + 1) pos s = .returned (s.content str pos, pos + 1) := by
  rw [stringLoop, fastCodeAt_of_drop here]
  simp only [↓reduceIte]
  rw [finishString_eq even]

/-- A character that is not looked at. -/
theorem stringLoop_plain {s : StringState} {c : Nat} (here : str.drop pos = c :: rest)
    (quote : c ≠ '"'.toNat) (backslash : c ≠ '\\'.toNat)
    (narrow : p.encoding = .bytes → c < 128) (inside : p.eofIsZero = true → c ≠ 0) (fuel : Nat) :
    stringLoop p str (fuel + 1) pos s = stringLoop p str fuel (pos + 1) s := by
  have single : ¬ (p.encoding = .bytes ∧ 0x80 ≤ c) :=
    fun wide => Nat.not_lt.mpr wide.2 (narrow wide.1)
  rw [stringLoop, fastCodeAt_of_drop here]
  simp only [Option.some.injEq, Option.getD_some]
  rw [if_neg quote, if_neg backslash, if_neg single, not_eof inside]
  rfl

theorem stringLoop_nul {s : StringState} (here : str.drop pos = 0 :: rest)
    (zero : p.eofIsZero = true) (fuel : Nat) :
    stringLoop p str (fuel + 1) pos s = .thrown .unclosedString := by
  have narrow : ¬ (p.encoding = .bytes ∧ 0x80 ≤ 0) := fun wide => absurd wide.2 (by decide)
  rw [stringLoop, fastCodeAt_of_drop here]
  simp only [Option.some.injEq, Option.getD_some]
  rw [if_neg (by decide), if_neg (by decide), if_neg narrow, eof_zero zero]
  rfl

theorem skipped_following {b : Nat} (leading : 192 ≤ b) (bound : b < 248) :
    skipped b = Utf8.following b := by
  unfold skipped Utf8.following
  rw [if_neg (by omega), if_neg (by omega), if_neg (by omega : ¬ b < 128)]
  by_cases four : b ≥ 240
  · rw [if_pos four, if_neg (by omega), if_neg (by omega)]
  · rw [if_neg four]
    by_cases three : b ≥ 224
    · rw [if_pos three, if_neg (by omega), if_pos (by omega)]
    · rw [if_neg three, if_pos (by omega)]

/-- The bytes of a code point are skipped at once. -/
theorem stringLoop_wide {s : StringState} {c : Char} (bytes : p.encoding = .bytes)
    (wide : 128 ≤ c.toNat) (here : str.drop pos = Utf8.bytes c ++ rest) (fuel : Nat) :
    stringLoop p str (fuel + 1) pos s =
      stringLoop p str fuel (pos + (Utf8.bytes c).length) s := by
  obtain ⟨b, more, eq, leading, bound, length, -⟩ :=
    Utf8.bytes_leading wide (Utf16.toNat_lt c)
  rw [eq, List.cons_append] at here
  have narrow : p.encoding = .bytes ∧ 0x80 ≤ b := ⟨bytes, by omega⟩
  have quote : b ≠ '"'.toNat := fun same => absurd leading (by rw [same]; decide)
  have backslash : b ≠ '\\'.toNat := fun same => absurd leading (by rw [same]; decide)
  have next : pos + 1 + skipped b = pos + (b :: more).length := by
    rw [skipped_following leading bound, List.length_cons, length]
    omega
  rw [stringLoop, fastCodeAt_of_drop here, eq]
  simp only [Option.some.injEq, Option.getD_some]
  rw [if_neg quote, if_neg backslash, if_pos narrow, next]

theorem addChar_ascii {c : Nat} (narrow : c < 128) : p.addChar c = [c] :=
  if_neg (fun wide => absurd wide.2 (by omega))

/-- An escape sequence of one character. -/
theorem stringLoop_escape {s : StringState} {x c : Nat} (even : s.Even pos)
    (here : str.drop pos = '\\'.toNat :: x :: rest) (other : x ≠ 'u'.toNat)
    (meaning : escaped x = some c) (narrow : c < 128) :
    ∃ s' : StringState, s'.Even (pos + 2) ∧ s'.content str (pos + 2) = s.content str pos ++ [c] ∧
      ∀ fuel, stringLoop p str (fuel + 1) pos s = stringLoop p str fuel (pos + 2) s' := by
  have length : pos + 1 - s.start - 1 = pos - s.start := by
    rw [Nat.sub_right_comm, Nat.add_sub_cancel]
  have parsed : parseEscape p str (pos + 1) s =
      .returned ({ (s.flush str (pos + 1)).add p c with start := pos + 2 }, pos + 2) := by
    have flushed : (s.flush str (pos + 1)).cancelPrev p = s.flush str (pos + 1) :=
      by
      have still : (s.flush str (pos + 1)).Even pos := ⟨even.start_le, even.prev⟩
      exact StringState.cancelPrev_even still
    unfold parseEscape
    simp only [fastCodeAt_of_drop (drop_cons here), Option.some.injEq, Option.bind_some, meaning,
      if_neg other, flushed]
  refine ⟨{ (s.flush str (pos + 1)).add p c with start := pos + 2 }, ⟨Nat.le_refl _, even.prev⟩,
    ?_, ?_⟩
  · unfold StringState.content StringState.add StringState.flush
    rw [addChar_ascii narrow, length]
    simp [substr]
  · intro fuel
    rw [stringLoop, fastCodeAt_of_drop here]
    simp only [parsed, ↓reduceIte]
    rw [if_neg (by decide)]
    rfl

end Strings

section Escapes

theorem escape_some {c : Nat} {text : List Nat} (special : escape c = some text) :
    ∃ x, text = ['\\'.toNat, x] ∧ x ≠ 'u'.toNat ∧ escaped x = some c ∧ c < 128 := by
  unfold escape at special
  repeat'
    split at special
    · obtain rfl := Option.some.inj special
      subst_vars
      exact ⟨_, rfl, by decide, by decide, by decide⟩
  cases special

theorem escape_none {c : Nat} (plain : escape c = none) : c ≠ '"'.toNat ∧ c ≠ '\\'.toNat := by
  constructor
  · rintro rfl
    exact absurd plain (by decide)
  · rintro rfl
    exact absurd plain (by decide)

theorem escape_wide {c : Nat} (wide : 128 ≤ c) : escape c = none := by
  cases special : escape c with
  | none => rfl
  | some text =>
    obtain ⟨x, -, -, -, narrow⟩ := escape_some special
    exact absurd narrow (Nat.not_lt.mpr wide)

end Escapes

section Quoting

variable (p) in
/-- What stands between the quotes. -/
def quoted (cs : List Char) : List Nat :=
  cs.flatMap (fun c => (escape c.toNat).getD (p.encoding.units c))

theorem quoted_cons (c : Char) (cs : List Char) :
    quoted p (c :: cs) = (escape c.toNat).getD (p.encoding.units c) ++ quoted p cs :=
  List.flatMap_cons

theorem addChar_single {u : Nat} (single : p.encoding = .utf16 → u < 65536) :
    p.addChar u = [u] :=
  if_neg (fun pair => absurd (single pair.1) (Nat.not_lt.mpr pair.2))

theorem units_single {c : Char} (u : Nat) (member : u ∈ p.encoding.units c) :
    p.addChar u = [u] := by
  apply addChar_single
  intro utf16
  rw [utf16] at member
  have bound := Utf16.toNat_lt c
  rw [units_utf16, Utf16.units] at member
  split at member
  · rw [List.mem_singleton] at member
    omega
  · simp only [List.mem_cons, List.not_mem_nil, or_false] at member
    omega

theorem quoteChars_plain {us : List Nat}
    (plain : ∀ u ∈ us, escape u = none ∧ p.addChar u = [u]) :
    quoteChars p (us ++ rest) = us ++ quoteChars p rest := by
  induction us with
  | nil => rfl
  | cons u us ih =>
    have first := plain u (List.mem_cons_self ..)
    rw [List.cons_append, quoteChars, first.1, first.2,
      ih (fun u member => plain u (List.mem_cons_of_mem _ member))]
    rfl

theorem quoteChars_encode (cs : List Char) :
    quoteChars p (p.encoding.encode cs) = quoted p cs := by
  induction cs with
  | nil => rfl
  | cons c cs ih =>
    rw [encode_cons, quoted_cons]
    by_cases narrow : c.toNat < 128
    · rw [units_narrow _ narrow, List.singleton_append, quoteChars, addChar_ascii narrow, ih]
    · have wide := Nat.not_lt.mp narrow
      rw [escape_wide wide, quoteChars_plain, ih]
      · rfl
      · intro u member
        exact ⟨escape_wide (units_wide _ wide u member), units_single u member⟩

theorem quoteHl_plain {us : List Nat}
    (plain : ∀ u ∈ us, escape u = none ∧ isSurrogate u = false ∧ p.addChar u = [u]) :
    quoteHl p none (us ++ rest) = us ++ quoteHl p none rest := by
  induction us with
  | nil => rfl
  | cons u us ih =>
    have first := plain u (List.mem_cons_self ..)
    rw [List.cons_append, quoteHl, first.1, first.2.1]
    simp only [Bool.false_eq_true, ↓reduceIte]
    rw [first.2.2, ih (fun u member => plain u (List.mem_cons_of_mem _ member))]
    rfl

/-- The code point of a pair of surrogates. -/
theorem hlPair_eq {n : Nat} (small : n < 1048576) :
    hlPair (55296 + n / 1024) (56320 + n % 1024) = 65536 + n := by
  have high : BitVec.ofNat 32 (55296 + n / 1024) - 0xD800#32 = BitVec.ofNat 32 (n / 1024) := by
    apply BitVec.eq_of_toNat_eq
    simp only [BitVec.toNat_sub, BitVec.toNat_ofNat]
    omega
  have low : BitVec.ofNat 32 (56320 + n % 1024) - 0xDC00#32 = BitVec.ofNat 32 (n % 1024) := by
    apply BitVec.eq_of_toNat_eq
    simp only [BitVec.toNat_sub, BitVec.toNat_ofNat]
    omega
  have shifted : (BitVec.ofNat 32 (n / 1024) <<< 10).toNat = (n / 1024) <<< 10 := by
    rw [BitVec.toNat_shiftLeft, BitVec.toNat_ofNat, Nat.shiftLeft_eq, Nat.shiftLeft_eq]
    omega
  have joined : (n / 1024) <<< 10 ||| n % 1024 = n := by
    rw [← Nat.shiftLeft_add_eq_or_of_lt (Nat.mod_lt _ (by decide)), Nat.shiftLeft_eq]
    omega
  have last : (BitVec.ofNat 32 (n % 1024)).toNat = n % 1024 := by
    rw [BitVec.toNat_ofNat]
    omega
  unfold hlPair
  rw [high, low, BitVec.toNat_add, BitVec.toNat_or, shifted, last, joined, BitVec.toNat_ofNat]
  omega

theorem quoteHl_encode (cs : List Char) :
    quoteHl p none (p.encoding.encode cs) = quoted p cs := by
  induction cs with
  | nil => rfl
  | cons c cs ih =>
    rw [encode_cons, quoted_cons]
    by_cases narrow : c.toNat < 128
    · have single : isSurrogate c.toNat = false := by
        unfold isSurrogate
        rw [decide_eq_false (by omega)]
        rfl
      rw [units_narrow _ narrow, List.singleton_append, quoteHl]
      cases escape c.toNat with
      | some text => exact congrArg (text ++ ·) ih
      | none =>
        simp only [single, Bool.false_eq_true, ↓reduceIte]
        rw [addChar_ascii narrow, ih]
        rfl
    · have wide := Nat.not_lt.mp narrow
      rw [escape_wide wide]
      by_cases pair : p.encoding = .utf16 ∧ 65536 ≤ c.toNat
      · have units : p.encoding.units c =
            [55296 + (c.toNat - 65536) / 1024, 56320 + (c.toNat - 65536) % 1024] := by
          rw [pair.1]
          exact if_neg (Nat.not_lt.mpr pair.2)
        have bound := Utf16.toNat_lt c
        have high : isSurrogate (55296 + (c.toNat - 65536) / 1024) = true := by
          unfold isSurrogate
          rw [decide_eq_true (by omega), decide_eq_true (by omega)]
          rfl
        have low : isSurrogate (56320 + (c.toNat - 65536) % 1024) = true := by
          unfold isSurrogate
          rw [decide_eq_true (by omega), decide_eq_true (by omega)]
          rfl
        have code : 65536 + (c.toNat - 65536) = c.toNat := by omega
        rw [units, List.cons_append, List.singleton_append, quoteHl, escape_wide (by omega)]
        simp only [high, ↓reduceIte]
        rw [quoteHl, escape_wide (by omega)]
        simp only [low, ↓reduceIte]
        rw [hlPair_eq (by omega), code, ih, Platform.addChar, Encoding.addChar, if_pos pair]
        rfl
      · rw [quoteHl_plain, ih]
        · rfl
        · intro u member
          refine ⟨escape_wide (units_wide _ wide u member), ?_, units_single u member⟩
          have surrogate := Utf16.not_surrogate c
          unfold isSurrogate
          rw [Bool.and_eq_false_iff, decide_eq_false_iff_not, decide_eq_false_iff_not]
          cases e : p.encoding with
          | utf16 =>
            rw [e] at member
            have small : c.toNat < 65536 := Nat.not_le.mp (fun large => pair ⟨e, large⟩)
            rw [units_utf16, Utf16.units, if_pos small, List.mem_singleton] at member
            omega
          | scalars =>
            rw [e] at member
            obtain rfl := List.mem_singleton.mp member
            omega
          | bytes =>
            rw [e] at member
            rw [units_bytes] at member
            have := Utf8.bytes_lt u member
            omega

theorem quote_encode (cs : List Char) :
    quote p (p.encoding.encode cs) = '"'.toNat :: quoted p cs ++ ['"'.toNat] := by
  unfold quote
  rw [quoteChars_encode, quoteHl_encode, ite_self]

end Quoting

section Closing

variable (p) in
/-- What reading leads to: where zero is the end of the string, it stops in the middle of a string
in which zero occurs. -/
def unlessNul {α : Type} (nul : Bool) (a : α) : Reading α :=
  if p.eofIsZero && nul then .thrown .unclosedString else .returned a

theorem unlessNul_false {α : Type} (a : α) : unlessNul p false a = .returned a := by
  unfold unlessNul
  rw [Bool.and_false]
  rfl

theorem unlessNul_thrown {α : Type} {nul : Bool} (zero : p.eofIsZero = true)
    (stops : nul = true) (a : α) : unlessNul p nul a = .thrown .unclosedString := by
  unfold unlessNul
  rw [zero, stops]
  rfl

theorem unlessNul_returned {α : Type} {nul : Bool} (inside : p.eofIsZero = true → nul = false)
    (a : α) : unlessNul p nul a = .returned a := by
  unfold unlessNul
  cases zero : p.eofIsZero with
  | false => rfl
  | true =>
    rw [inside zero]
    rfl

/-- Units that are not looked at, one after the other. -/
theorem stringLoop_units {us : List Nat} {s : StringState} {r : Reading (List Nat × Nat)}
    (here : str.drop pos = us ++ rest)
    (plain : ∀ u ∈ us, u ≠ '"'.toNat ∧ u ≠ '\\'.toNat ∧ (p.encoding = .bytes → u < 128) ∧
      (p.eofIsZero = true → u ≠ 0))
    (continues : Settles (fun fuel => stringLoop p str fuel (pos + us.length) s) r) :
    Settles (fun fuel => stringLoop p str fuel pos s) r := by
  induction us generalizing pos with
  | nil => exact continues
  | cons u us ih =>
    obtain ⟨quote, backslash, narrow, inside⟩ := plain u (List.mem_cons_self ..)
    have next : pos + (u :: us).length = pos + 1 + us.length := by
      rw [List.length_cons]
      omega
    rw [next] at continues
    apply Settles.succ (stringLoop_plain here quote backslash narrow inside)
    exact ih (drop_cons here) (fun u member => plain u (List.mem_cons_of_mem _ member)) continues

/-- One character in front of others. -/
theorem stringLoop_char {c : Char} {s : StringState} {r : Reading (List Nat × Nat)}
    (even : s.Even pos)
    (here : str.drop pos = (escape c.toNat).getD (p.encoding.units c) ++ rest)
    (inside : p.eofIsZero = true → c.toNat ≠ 0)
    (continues : ∀ s' : StringState,
      s'.Even (pos + ((escape c.toNat).getD (p.encoding.units c)).length) →
      s'.content str (pos + ((escape c.toNat).getD (p.encoding.units c)).length) =
        s.content str pos ++ p.encoding.units c →
      Settles (fun fuel => stringLoop p str fuel
        (pos + ((escape c.toNat).getD (p.encoding.units c)).length) s') r) :
    Settles (fun fuel => stringLoop p str fuel pos s) r := by
  cases special : escape c.toNat with
  | some text =>
    obtain ⟨x, rfl, other, meaning, narrow⟩ := escape_some special
    rw [special] at here continues
    obtain ⟨s', even', content, next⟩ := stringLoop_escape even here other meaning narrow
    rw [← units_narrow p.encoding narrow] at content
    exact Settles.succ next (continues s' even' content)
  | none =>
    obtain ⟨quote, backslash⟩ := escape_none special
    rw [special] at here continues
    have step := continues s (even.add _) (StringState.content_append even here)
    by_cases narrow : c.toNat < 128
    · have single := units_narrow p.encoding narrow
      apply stringLoop_units here ?_ step
      intro u member
      rw [Option.getD_none, single, List.mem_singleton] at member
      rw [member]
      exact ⟨quote, backslash, fun _ => narrow, inside⟩
    · have wide := Nat.not_lt.mp narrow
      by_cases bytes : p.encoding = .bytes
      · have units : p.encoding.units c = Utf8.bytes c := by rw [bytes, units_bytes]
        rw [Option.getD_none, units] at here step
        exact Settles.succ (stringLoop_wide bytes wide here) step
      · apply stringLoop_units here ?_ step
        intro u member
        have above := units_wide p.encoding wide u member
        refine ⟨?_, ?_, fun same => absurd same bytes, fun _ => by omega⟩
        · rintro rfl
          exact absurd above (by decide)
        · rintro rfl
          exact absurd above (by decide)

/-- The rest of a string. -/
theorem stringLoop_quoted (cs : List Char) {s : StringState} (even : s.Even pos)
    (here : str.drop pos = quoted p cs ++ '"'.toNat :: rest) :
    Settles (fun fuel => stringLoop p str fuel pos s)
      (unlessNul p ((p.encoding.encode cs).contains 0)
        (s.content str pos ++ p.encoding.encode cs, pos + (quoted p cs).length + 1)) := by
  induction cs generalizing pos s with
  | nil =>
    have empty : p.encoding.encode [] = [] := rfl
    rw [empty, List.append_nil, List.contains_nil, unlessNul_false]
    exact Settles.done (stringLoop_quote even here)
  | cons c cs ih =>
    rw [quoted_cons, List.append_assoc] at here
    by_cases stops : p.eofIsZero = true ∧ c.toNat = 0
    · have nul : (p.encoding.encode (c :: cs)).contains 0 = true := by
        rw [encode_cons, List.contains_iff_mem, List.mem_append]
        exact Or.inl ((zero_mem_units _ _).mpr stops.2)
      have plain : (escape c.toNat).getD (p.encoding.units c) = [0] := by
        rw [units_narrow _ (by omega), stops.2]
        rfl
      rw [plain] at here
      rw [unlessNul_thrown stops.1 nul]
      exact Settles.done (stringLoop_nul here stops.1)
    · have inside : p.eofIsZero = true → c.toNat ≠ 0 := fun zero null => stops ⟨zero, null⟩
      apply stringLoop_char even here inside
      intro s' even' content
      have tail := ih even' (drop_append here)
      have same : unlessNul p ((p.encoding.encode cs).contains 0) (s.content str pos ++
            p.encoding.encode (c :: cs), pos + (quoted p (c :: cs)).length + 1) =
          unlessNul p ((p.encoding.encode (c :: cs)).contains 0) (s.content str pos ++
            p.encoding.encode (c :: cs), pos + (quoted p (c :: cs)).length + 1) := by
        unfold unlessNul
        cases zero : p.eofIsZero with
        | false => rfl
        | true =>
          have other : (p.encoding.units c).contains 0 = false := by
            rw [List.contains_eq_mem, decide_eq_false_iff_not, zero_mem_units]
            exact inside zero
          rw [encode_cons, List.contains_append, other, Bool.false_or]
      rw [content, List.append_assoc, ← encode_cons, Nat.add_assoc pos, ← List.length_append,
        ← quoted_cons, same] at tail
      exact tail

/-- `parseString` on what `quote` writes. -/
theorem parseString_quote {text : List Nat} (wellFormed : p.encoding.WellFormed text)
    (here : str.drop pos = quote p text ++ rest) :
    Settles (fun fuel => parseString p str fuel (pos + 1))
      (unlessNul p (text.contains 0) (text, pos + (quote p text).length)) := by
  obtain ⟨cs, rfl⟩ := wellFormed
  rw [quote_encode, List.append_assoc, List.cons_append] at here
  have even : StringState.Even ⟨pos + 1, none, none⟩ (pos + 1) := ⟨Nat.le_refl _, rfl⟩
  have read := stringLoop_quoted cs even (drop_cons here)
  have start : StringState.content ⟨pos + 1, none, none⟩ str (pos + 1) = [] := by
    unfold StringState.content
    rw [Nat.sub_self]
    rfl
  have behind : pos + 1 + (quoted p cs).length + 1 =
      pos + (quote p (p.encoding.encode cs)).length := by
    rw [quote_encode, List.length_append, List.length_cons, List.length_singleton]
    omega
  rw [start, List.nil_append, behind] at read
  exact read

end Closing

section Numbers

/-- A character that ends a number. -/
def endsNumber (c : Nat) : Bool :=
  !(('0'.toNat ≤ c && c ≤ '9'.toNat) || c == '.'.toNat || c == 'e'.toNat || c == 'E'.toNat ||
    c == '+'.toNat || c == '-'.toNat)

/-- What follows a number ends it. -/
def Stops (rest : List Nat) : Prop := ∀ c ∈ rest.head?, endsNumber c = true

theorem step_end {s : NumberState} {c : Nat} (ends : endsNumber c = true) :
    s.step (some c) = if s.digit then .last else .invalid := by
  unfold endsNumber at ends
  simp only [Bool.not_eq_true', Bool.or_eq_false_iff, Bool.and_eq_false_iff,
    decide_eq_false_iff_not, beq_eq_false_iff_ne] at ends
  obtain ⟨⟨⟨⟨⟨range, point⟩, e⟩, capital⟩, plus⟩, minus⟩ := ends
  have zero : c ≠ '0'.toNat := by
    rintro rfl
    exact range.elim (fun h => h (by decide)) (fun h => h (by decide))
  have other : ¬ ('1'.toNat ≤ c ∧ c ≤ '9'.toNat) := by
    rintro ⟨low, high⟩
    exact range.elim (fun h => h (Nat.le_trans (by decide) low)) (fun h => h high)
  unfold NumberState.step
  simp only []
  rw [if_neg zero, if_neg other, if_neg point, if_neg (not_or.mpr ⟨e, capital⟩),
    if_neg (not_or.mpr ⟨plus, minus⟩)]

theorem step_ends {s : NumberState} {c : Nat} (ends : endsNumber c = true)
    (digit : s.digit = true) : s.step (some c) = .last := by
  rw [step_end ends, if_pos digit]

theorem numberLoop_last {s : NumberState} {start : Nat} (here : str.drop pos = rest)
    (stops : Stops rest) (digit : s.digit = true) (fuel : Nat) :
    numberLoop p str start (fuel + 1) pos s = .returned (s, pos) := by
  have last : s.step (p.fastCodeAt str pos) = .last := by
    cases rest with
    | nil =>
      rw [fastCodeAt_end here]
      split
      · exact step_ends (by decide) digit
      · exact if_pos digit
    | cons c rest =>
      rw [fastCodeAt_of_drop here]
      exact step_ends (stops c rfl) digit
  rw [numberLoop, last]

/-- The state in which any digit may follow. -/
def digits : NumberState := ⟨false, true, false, false, false, false⟩

theorem digits_step {c : Nat} (digit : '0'.toNat ≤ c ∧ c ≤ '9'.toNat) :
    digits.step (some c) = .next digits := by
  unfold NumberState.step
  simp only []
  by_cases zero : c = '0'.toNat
  · rw [if_pos zero]
    rfl
  · have above : '1'.toNat ≤ c := Nat.lt_of_le_of_ne digit.1 (Ne.symm zero)
    rw [if_neg zero, if_pos ⟨above, digit.2⟩]
    rfl

theorem numberLoop_digits (p : Platform F) (start : Nat) {ds : List Nat}
    (here : str.drop pos = ds ++ rest)
    (all : ∀ c ∈ ds, '0'.toNat ≤ c ∧ c ≤ '9'.toNat) (stops : Stops rest) :
    Settles (fun fuel => numberLoop p str start fuel pos digits)
      (.returned (digits, pos + ds.length)) := by
  induction ds generalizing pos with
  | nil => exact Settles.done (numberLoop_last here stops rfl)
  | cons c ds ih =>
    have step : ∀ fuel, numberLoop p str start (fuel + 1) pos digits =
        numberLoop p str start fuel (pos + 1) digits := by
      intro fuel
      rw [numberLoop, fastCodeAt_of_drop here, digits_step (all c (List.mem_cons_self ..))]
    have tail := ih (drop_cons here) (fun c member => all c (List.mem_cons_of_mem _ member))
    rw [Nat.add_assoc, Nat.add_comm 1] at tail
    exact Settles.succ step tail

/-- The decimal digits of a number in front of its end. -/
theorem toDigits_codes {n : Nat} :
    ∀ c ∈ (Nat.toDigits 10 n).map Char.toNat, '0'.toNat ≤ c ∧ c ≤ '9'.toNat := by
  intro c member
  obtain ⟨d, found, rfl⟩ := List.mem_map.mp member
  have digit : d.isDigit = true :=
    Nat.isDigit_of_mem_toDigits (b := 10) (by decide) (by decide) found
  unfold Char.isDigit at digit
  rw [Bool.and_eq_true, decide_eq_true_eq, decide_eq_true_eq] at digit
  exact digit

/-- A positive number starts with another digit than zero. -/
theorem toDigits_first {n : Nat} (positive : 0 < n) :
    ∃ c ds, (Nat.toDigits 10 n).map Char.toNat = c :: ds ∧ '1'.toNat ≤ c ∧ c ≤ '9'.toNat := by
  induction n using Nat.strongRecOn with
  | ind n ih =>
    by_cases single : n < 10
    · refine ⟨n.digitChar.toNat, [], ?_, ?_⟩
      · rw [Nat.toDigits_of_lt_base single]
        rfl
      · rw [Nat.toNat_digitChar_of_lt_ten single]
        exact ⟨Nat.add_le_add_left positive 48, Nat.add_le_add_left (Nat.le_of_lt_succ single) 48⟩
    · obtain ⟨c, ds, eq, first⟩ := ih (n / 10) (by omega) (by omega)
      refine ⟨c, ds ++ [(n % 10).digitChar.toNat], ?_, first⟩
      rw [Nat.toDigits_of_base_le (by decide) (Nat.not_lt.mp single), List.map_append, eq]
      rfl

theorem firstNumberState_digit {c : Nat} (digit : '1'.toNat ≤ c) : firstNumberState c = digits := by
  have zero : c ≠ '0'.toNat := fun same => absurd digit (by rw [same]; decide)
  have minus : c ≠ '-'.toNat := fun same => absurd digit (by rw [same]; decide)
  unfold firstNumberState
  rw [beq_eq_false_iff_ne.mpr zero, beq_eq_false_iff_ne.mpr minus]
  rfl

theorem firstNumberState_minus {c : Nat} (digit : '1'.toNat ≤ c ∧ c ≤ '9'.toNat) :
    (firstNumberState '-'.toNat).step (some c) = .next digits := by
  have zero : c ≠ '0'.toNat := fun same => absurd digit.1 (by rw [same]; decide)
  unfold NumberState.step
  simp only []
  rw [if_neg zero, if_pos digit]
  rfl

/-- The characters of a number that is printed, and the loop behind the first one. -/
theorem numberLoop_decimal (p : Platform F) (start : Nat) (i : Int)
    (here : str.drop pos = decimal i ++ rest)
    (stops : Stops rest) :
    ∃ c more s, decimal i = c :: more ∧ isNumberStart c = true ∧ s.point = false ∧
      Settles (fun fuel => numberLoop p str start fuel (pos + 1) (firstNumberState c))
        (.returned (s, pos + (decimal i).length)) := by
  unfold decimal at here ⊢
  by_cases negative : i < 0
  · rw [if_pos negative] at here ⊢
    obtain ⟨c, ds, eq, first⟩ := toDigits_first (n := i.natAbs) (by omega)
    have all := toDigits_codes (n := i.natAbs)
    rw [eq] at here all ⊢
    refine ⟨_, _, digits, rfl, by decide, rfl, ?_⟩
    have step : ∀ fuel, numberLoop p str start (fuel + 1) (pos + 1) (firstNumberState '-'.toNat) =
        numberLoop p str start fuel (pos + 1 + 1) digits := by
      intro fuel
      rw [numberLoop, fastCodeAt_of_drop (drop_cons here), firstNumberState_minus first]
    have tail := numberLoop_digits p start (drop_cons (drop_cons here))
      (fun c member => all c (List.mem_cons_of_mem _ member)) stops
    have behind : pos + 1 + 1 + ds.length = pos + ('-'.toNat :: c :: ds).length := by
      rw [List.length_cons, List.length_cons]
      omega
    rw [behind] at tail
    exact Settles.succ step tail
  · rw [if_neg negative] at here ⊢
    by_cases zero : i.natAbs = 0
    · rw [zero] at here ⊢
      have single : (Nat.toDigits 10 0).map Char.toNat = ['0'.toNat] := by decide
      rw [single] at here ⊢
      exact ⟨_, _, firstNumberState '0'.toNat, rfl, by decide, rfl,
        Settles.done (numberLoop_last (drop_cons here) stops (by decide))⟩
    · obtain ⟨c, ds, eq, first⟩ := toDigits_first (n := i.natAbs) (by omega)
      have all := toDigits_codes (n := i.natAbs)
      rw [eq] at here all ⊢
      have digit : isNumberStart c = true := by
        unfold isNumberStart
        rw [decide_eq_true (Nat.le_trans (by decide) first.1), decide_eq_true first.2]
        rfl
      refine ⟨c, ds, digits, rfl, digit, rfl, ?_⟩
      have tail := numberLoop_digits p start (drop_cons here)
        (fun c member => all c (List.mem_cons_of_mem _ member)) stops
      rw [firstNumberState_digit first.1, List.length_cons, Nat.add_comm ds.length,
        ← Nat.add_assoc]
      exact tail

/-- What the target does with the decimal digits of an `Int` of 32 bits. -/
structure Exact (p : Platform F) : Prop where
  parseFloat : ∀ i : Int, -2147483648 ≤ i → i < 2147483648 →
    p.parseFloat (decimal i) = p.ofInt i
  int : ∀ i : Int, -2147483648 ≤ i → i < 2147483648 → p.int (p.ofInt i) = i
  equal : ∀ i : Int, -2147483648 ≤ i → i < 2147483648 →
    p.equal (p.ofInt i) (p.ofInt i) = true

theorem numberValue_decimal (exact_ : Exact p) {i : Int} (lower : -2147483648 ≤ i)
    (upper : i < 2147483648) : numberValue p (decimal i) false = .int i := by
  unfold numberValue
  simp only [Bool.false_eq_true, ↓reduceIte]
  rw [exact_.parseFloat i lower upper, exact_.int i lower upper,
    if_pos (exact_.equal i lower upper)]

end Numbers

end Haxe.Source.Json
