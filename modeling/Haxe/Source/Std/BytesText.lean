import Mathlib.Algebra.Ring.Nat
import Haxe.Theory.Fuel
import Haxe.Theory.UnicodeForms

/-!
# Texts in bytes

`UnicodeString.validate`, and `haxe.io.Bytes` of js and of a target without an implementation of
its own, `ofString` and `getString`. The bytes of the latter are numbers, as are the code units of
a string.
-/

namespace Haxe.Source.BytesText

open Theory Theory.FueledLoops

/-- `haxe.io.Encoding` -/
inductive Encoding where
  | utf8
  | rawNative
  deriving DecidableEq

/-! ## Validation -/

/-- How `validate` ends. -/
inductive Validation where
  | returned (valid : Bool)
  | thrown (message : String)
  /-- A byte outside of the data is read. -/
  | outside
  deriving DecidableEq

/-- `Bytes.fastGet(data, pos)`, and what follows. -/
def fastGet (data : List UInt8) (pos : Nat) (next : Nat → Next Nat Validation) :
    Next Nat Validation :=
  match data[pos]? with
  | some c => next c.toNat
  | none => .done .outside

/-- A turn of the loop of `validate`. -/
@[grind =] def validateStep (data : List UInt8) (pos : Nat) : Next Nat Validation :=
  let max := data.length
  let no : Next Nat Validation := .done (.returned false)
  if pos < max then
    fastGet data pos fun c =>
      let pos := pos + 1
      if c < 0x80 then .again pos
      else if c < 0xC2 then no
      else if c < 0xE0 then
        if pos + 1 > max then no
        else fastGet data pos fun c2 =>
          let pos := pos + 1
          if c2 < 0x80 ∨ c2 > 0xBF then no else .again pos
      else if c < 0xF0 then
        if pos + 2 > max then no
        else fastGet data pos fun c2 =>
          let pos := pos + 1
          if if c = 0xE0 then c2 < 0xA0 ∨ c2 > 0xBF else c2 < 0x80 ∨ c2 > 0xBF then no
          else fastGet data pos fun c3 =>
            let pos := pos + 1
            if c3 < 0x80 ∨ c3 > 0xBF then no
            else
              let c := (c <<< 16) ||| (c2 <<< 8) ||| c3
              if 0xEDA080 ≤ c ∧ c ≤ 0xEDBFBF then no else .again pos
      else if c > 0xF4 then no
      else if pos + 3 > max then no
      else fastGet data pos fun c2 =>
        let pos := pos + 1
        if
          if c = 0xF0 then c2 < 0x90 ∨ c2 > 0xBF
          else if c = 0xF4 then c2 < 0x80 ∨ c2 > 0x8F
          else c2 < 0x80 ∨ c2 > 0xBF
        then no
        else fastGet data pos fun c3 =>
          let pos := pos + 1
          if c3 < 0x80 ∨ c3 > 0xBF then no
          else fastGet data pos fun c4 =>
            let pos := pos + 1
            if c4 < 0x80 ∨ c4 > 0xBF then no else .again pos
  else .done (.returned true)

/-- Each turn takes a byte at least. -/
def validate (b : List UInt8) : Encoding → Option Validation
  | .rawNative =>
    some (.thrown "UnicodeString.validate: RawNative encoding is not supported")
  | .utf8 => loop (validateStep b) (b.length + 1) 0

section Validate

variable {data : List UInt8} {pos c : Nat} {rest : List Nat}

/-- The bytes as numbers. -/
def numbers (data : List UInt8) : List Nat := data.map UInt8.toNat

theorem fastGet_drop (here : (numbers data).drop pos = c :: rest)
    (next : Nat → Next Nat Validation) : fastGet data pos next = next c := by
  have read : (numbers data)[pos]? = some c := by
    rw [← List.head?_drop, here]
    rfl
  unfold numbers at read
  rw [List.getElem?_map, Option.map_eq_some_iff] at read
  obtain ⟨byte, found, rfl⟩ := read
  unfold fastGet
  rw [found]

theorem drop_succ (here : (numbers data).drop pos = c :: rest) :
    (numbers data).drop (pos + 1) = rest := by
  rw [← List.drop_drop, here]
  rfl

/-- The packed bytes of a surrogate. -/
theorem packed_surrogate {c c2 c3 : Nat} (second : c2 < 0xC0) (third : c3 < 0xC0)
    (tail : 0x80 ≤ c3) :
    (0xEDA080 ≤ (c <<< 16) ||| (c2 <<< 8) ||| c3 ∧ (c <<< 16) ||| (c2 <<< 8) ||| c3 ≤ 0xEDBFBF) ↔
      c = 0xED ∧ 0xA0 ≤ c2 := by
  have low : (c2 <<< 8) ||| c3 = c2 * 256 + c3 := by
    rw [← Nat.shiftLeft_add_eq_or_of_lt (by omega), Nat.shiftLeft_eq]
  have all : (c <<< 16) ||| (c2 <<< 8) ||| c3 = c * 65536 + (c2 * 256 + c3) := by
    rw [Nat.or_assoc, low, ← Nat.shiftLeft_add_eq_or_of_lt (by omega), Nat.shiftLeft_eq]
  rw [all]
  omega

/-- A turn steps over a form, or finds that there is none. -/
def Steps (data : List UInt8) (pos : Nat) (l : List Nat) : Prop :=
  (∃ form rest, l = form ++ rest ∧ Utf8.Form form ∧
      validateStep data pos = .again (pos + form.length)) ∨
    (validateStep data pos = .done (.returned false) ∧
      ∀ form rest, l = form ++ rest → ¬ Utf8.Form form)

section Steps

variable {a b : Nat} {l : List Nat}

theorem length_drop (here : (numbers data).drop pos = a :: l) :
    data.length = pos + 1 + l.length := by
  have length := congrArg List.length here
  unfold numbers at length
  rw [List.length_drop, List.length_map, List.length_cons] at length
  omega

theorem inside (here : (numbers data).drop pos = a :: l) : pos < data.length := by
  have := length_drop here
  omega

theorem steps_one (here : (numbers data).drop pos = a :: l) (small : a < 128) :
    Steps data pos (a :: l) := by
  refine .inl ⟨[a], l, rfl, .one small, ?_⟩
  unfold validateStep
  dsimp only
  rw [if_pos (inside here), fastGet_drop here, if_pos small]
  rfl

theorem steps_none (here : (numbers data).drop pos = a :: l)
    (other : 128 ≤ a ∧ a < 194 ∨ 245 ≤ a) : Steps data pos (a :: l) := by
  refine .inr ⟨?_, ?_⟩
  · unfold validateStep
    dsimp only
    rw [if_pos (inside here), fastGet_drop here, if_neg (by omega)]
    split
    · rfl
    · rw [if_neg (by omega), if_neg (by omega), if_pos (by omega)]
  · intro form rest same form_
    rcases form_.leading same with h | ⟨h, h', -⟩ | ⟨h, h', -⟩ | ⟨h, h', -⟩ <;> omega

theorem steps_two (here : (numbers data).drop pos = a :: l) (low : 194 ≤ a) (high : a < 224) :
    Steps data pos (a :: l) := by
  have length := length_drop here
  have run : validateStep data pos =
      if pos + 1 + 1 > data.length then .done (.returned false)
      else fastGet data (pos + 1) fun c2 =>
        if c2 < 0x80 ∨ c2 > 0xBF then .done (.returned false) else .again (pos + 1 + 1) := by
    unfold validateStep
    dsimp only
    rw [if_pos (inside here), fastGet_drop here, if_neg (by omega), if_neg (by omega),
      if_pos high]
  have refuse : (∀ b l', l = b :: l' → ¬ Utf8.Tail b) →
      ∀ form rest, a :: l = form ++ rest → ¬ Utf8.Form form := by
    intro none_ form rest same form_
    rcases form_.leading same with h | ⟨-, -, b, l', eq, tail⟩ | ⟨h, h', -⟩ | ⟨h, h', -⟩
    · omega
    · exact none_ b l' eq tail
    · omega
    · omega
  cases l with
  | nil =>
    rw [List.length_nil] at length
    rw [if_pos (by omega)] at run
    exact .inr ⟨run, refuse (fun b l' eq => absurd eq (List.cons_ne_nil b l').symm)⟩
  | cons b l' =>
    rw [List.length_cons] at length
    rw [if_neg (by omega), fastGet_drop (drop_succ here)] at run
    by_cases tail : Utf8.Tail b
    · rw [if_neg (by have := tail.1; have := tail.2; omega)] at run
      exact .inl ⟨[a, b], l', rfl, .two low high tail, run⟩
    · rw [if_pos (by unfold Utf8.Tail at tail; omega)] at run
      refine .inr ⟨run, refuse fun b' l'' eq => ?_⟩
      obtain ⟨rfl, -⟩ := List.cons.inj eq
      exact tail

theorem steps_three (here : (numbers data).drop pos = a :: l) (low : 224 ≤ a) (high : a < 240) :
    Steps data pos (a :: l) := by
  have length := length_drop here
  have run : validateStep data pos =
      if pos + 1 + 2 > data.length then .done (.returned false)
      else fastGet data (pos + 1) fun c2 =>
        if if a = 0xE0 then c2 < 0xA0 ∨ c2 > 0xBF else c2 < 0x80 ∨ c2 > 0xBF then
          .done (.returned false)
        else fastGet data (pos + 1 + 1) fun c3 =>
          if c3 < 0x80 ∨ c3 > 0xBF then .done (.returned false)
          else if 0xEDA080 ≤ (a <<< 16) ||| (c2 <<< 8) ||| c3 ∧
              (a <<< 16) ||| (c2 <<< 8) ||| c3 ≤ 0xEDBFBF then
            .done (.returned false)
          else .again (pos + 1 + 1 + 1) := by
    unfold validateStep
    dsimp only
    rw [if_pos (inside here), fastGet_drop here, if_neg (by omega), if_neg (by omega),
      if_neg (by omega), if_pos high]
  have refuse : (∀ b c l', l = b :: c :: l' → (a = 224 → 160 ≤ b) → (a = 237 → b < 160) →
      Utf8.Tail b → ¬ Utf8.Tail c) → ∀ form rest, a :: l = form ++ rest → ¬ Utf8.Form form := by
    intro none_ form rest same form_
    rcases form_.leading same with h | ⟨h, h', -⟩ | ⟨-, -, b, c, l', eq, least, most, tail, tail'⟩
      | ⟨h, h', -⟩
    · omega
    · omega
    · exact none_ b c l' eq least most tail tail'
    · omega
  match l with
  | [] =>
    rw [List.length_nil] at length
    rw [if_pos (by omega)] at run
    exact .inr ⟨run, refuse fun b c l' eq => absurd eq (List.cons_ne_nil b _).symm⟩
  | [b] =>
    rw [List.length_singleton] at length
    rw [if_pos (by omega)] at run
    refine .inr ⟨run, refuse fun b' c l' eq => ?_⟩
    exact absurd (List.cons.inj eq).2 (List.cons_ne_nil c l').symm
  | b :: c :: l' =>
    rw [List.length_cons, List.length_cons] at length
    rw [if_neg (by omega), fastGet_drop (drop_succ here)] at run
    have refuse' : (¬ ((a = 224 → 160 ≤ b) ∧ (a = 237 → b < 160) ∧ Utf8.Tail b ∧ Utf8.Tail c)) →
        ∀ form rest, a :: b :: c :: l' = form ++ rest → ¬ Utf8.Form form := by
      refine fun none_ => refuse fun b' c' l'' eq least most tail tail' => none_ ?_
      obtain ⟨rfl, eq'⟩ := List.cons.inj eq
      obtain ⟨rfl, -⟩ := List.cons.inj eq'
      exact ⟨least, most, tail, tail'⟩
    by_cases second : if a = 0xE0 then b < 0xA0 ∨ b > 0xBF else b < 0x80 ∨ b > 0xBF
    · rw [if_pos second] at run
      refine .inr ⟨run, refuse' ?_⟩
      rintro ⟨least, -, tail, -⟩
      obtain ⟨from_, below⟩ := tail
      split at second <;> omega
    · rw [if_neg second, fastGet_drop (drop_succ (drop_succ here))] at run
      have tail : Utf8.Tail b ∧ (a = 224 → 160 ≤ b) := by
        unfold Utf8.Tail
        split at second <;> omega
      by_cases third : c < 0x80 ∨ c > 0xBF
      · rw [if_pos third] at run
        refine .inr ⟨run, refuse' ?_⟩
        rintro ⟨-, -, -, from_, below⟩
        omega
      · have tail' : Utf8.Tail c := ⟨by omega, by omega⟩
        have packed := packed_surrogate (c := a) tail.1.2 tail'.2 tail'.1
        rw [if_neg third] at run
        by_cases surrogate : a = 0xED ∧ 0xA0 ≤ b
        · rw [if_pos (packed.mpr surrogate)] at run
          refine .inr ⟨run, refuse' ?_⟩
          rintro ⟨-, most, -⟩
          omega
        · rw [if_neg (mt packed.mp surrogate)] at run
          exact .inl ⟨[a, b, c], l', rfl,
            .three low high tail.2 (by omega) tail.1 tail', run⟩

theorem steps_four (here : (numbers data).drop pos = a :: l) (low : 240 ≤ a) (high : a < 245) :
    Steps data pos (a :: l) := by
  have length := length_drop here
  have run : validateStep data pos =
      if pos + 1 + 3 > data.length then .done (.returned false)
      else fastGet data (pos + 1) fun c2 =>
        if
          if a = 0xF0 then c2 < 0x90 ∨ c2 > 0xBF
          else if a = 0xF4 then c2 < 0x80 ∨ c2 > 0x8F
          else c2 < 0x80 ∨ c2 > 0xBF
        then .done (.returned false)
        else fastGet data (pos + 1 + 1) fun c3 =>
          if c3 < 0x80 ∨ c3 > 0xBF then .done (.returned false)
          else fastGet data (pos + 1 + 1 + 1) fun c4 =>
            if c4 < 0x80 ∨ c4 > 0xBF then .done (.returned false)
            else .again (pos + 1 + 1 + 1 + 1) := by
    unfold validateStep
    dsimp only
    rw [if_pos (inside here), fastGet_drop here, if_neg (by omega), if_neg (by omega),
      if_neg (by omega), if_neg (by omega), if_neg (by omega)]
  have refuse : (∀ b c d l', l = b :: c :: d :: l' → (a = 240 → 144 ≤ b) → (a = 244 → b < 144) →
      Utf8.Tail b → Utf8.Tail c → ¬ Utf8.Tail d) →
      ∀ form rest, a :: l = form ++ rest → ¬ Utf8.Form form := by
    intro none_ form rest same form_
    rcases form_.leading same with h | ⟨h, h', -⟩ | ⟨h, h', -⟩
      | ⟨-, -, b, c, d, l', eq, least, most, tail, tail', tail''⟩
    · omega
    · omega
    · omega
    · exact none_ b c d l' eq least most tail tail' tail''
  by_cases short : l.length < 3
  · rw [if_pos (by omega)] at run
    refine .inr ⟨run, refuse fun b c d l' eq => ?_⟩
    rw [eq, List.length_cons, List.length_cons, List.length_cons] at short
    omega
  · match l with
    | [] | [_] | [_, _] => exact absurd (by simp) short
    | b :: c :: d :: l' =>
      rw [if_neg (by omega), fastGet_drop (drop_succ here)] at run
      have refuse' : (¬ ((a = 240 → 144 ≤ b) ∧ (a = 244 → b < 144) ∧ Utf8.Tail b ∧ Utf8.Tail c ∧
          Utf8.Tail d)) →
          ∀ form rest, a :: b :: c :: d :: l' = form ++ rest → ¬ Utf8.Form form := by
        refine fun none_ => refuse fun b' c' d' l'' eq least most tail tail' tail'' => none_ ?_
        obtain ⟨rfl, eq'⟩ := List.cons.inj eq
        obtain ⟨rfl, eq''⟩ := List.cons.inj eq'
        obtain ⟨rfl, -⟩ := List.cons.inj eq''
        exact ⟨least, most, tail, tail', tail''⟩
      by_cases second :
        if a = 0xF0 then b < 0x90 ∨ b > 0xBF
        else if a = 0xF4 then b < 0x80 ∨ b > 0x8F
        else b < 0x80 ∨ b > 0xBF
      · rw [if_pos second] at run
        refine .inr ⟨run, refuse' ?_⟩
        rintro ⟨least, most, ⟨from_, below⟩, -⟩
        split at second
        · omega
        · split at second <;> omega
      · rw [if_neg second, fastGet_drop (drop_succ (drop_succ here))] at run
        have tail : Utf8.Tail b ∧ (a = 240 → 144 ≤ b) ∧ (a = 244 → b < 144) := by
          unfold Utf8.Tail
          split at second
          · omega
          · split at second <;> omega
        by_cases third : c < 0x80 ∨ c > 0xBF
        · rw [if_pos third] at run
          refine .inr ⟨run, refuse' ?_⟩
          rintro ⟨-, -, -, ⟨from_, below⟩, -⟩
          omega
        · rw [if_neg third, fastGet_drop (drop_succ (drop_succ (drop_succ here)))] at run
          by_cases fourth : d < 0x80 ∨ d > 0xBF
          · rw [if_pos fourth] at run
            refine .inr ⟨run, refuse' ?_⟩
            rintro ⟨-, -, -, -, from_, below⟩
            omega
          · rw [if_neg fourth] at run
            exact .inl ⟨[a, b, c, d], l', rfl, .four low high tail.2.1 tail.2.2 tail.1
              ⟨by omega, by omega⟩ ⟨by omega, by omega⟩, run⟩

theorem validateStep_steps (here : (numbers data).drop pos = a :: l) :
    Steps data pos (a :: l) := by
  by_cases one : a < 128
  · exact steps_one here one
  · by_cases two : 194 ≤ a ∧ a < 224
    · exact steps_two here two.1 two.2
    · by_cases three : 224 ≤ a ∧ a < 240
      · exact steps_three here three.1 three.2
      · by_cases four : 240 ≤ a ∧ a < 245
        · exact steps_four here four.1 four.2
        · exact steps_none here (by omega)

end Steps

/-- No byte outside of the data is read, and the answer is whether the bytes are a text. -/
theorem validate_utf8 (b : List UInt8) : ∃ valid,
    validate b .utf8 = some (.returned valid) ∧ (valid = true ↔ Utf8.IsEncoded (numbers b)) := by
  have length : (numbers b).length = b.length := List.length_map ..
  have turns : ∀ pos, (pos ≤ b.length ∧
        (Utf8.IsEncoded ((numbers b).drop pos) ↔ Utf8.IsEncoded (numbers b))) →
      (∃ pos', validateStep b pos = .again pos' ∧
        (pos' ≤ b.length ∧
          (Utf8.IsEncoded ((numbers b).drop pos') ↔ Utf8.IsEncoded (numbers b))) ∧
        b.length - pos' < b.length - pos) ∨
      ∃ r, validateStep b pos = .done r ∧
        ∃ valid, r = .returned valid ∧ (valid = true ↔ Utf8.IsEncoded (numbers b)) := by
    intro pos ⟨within, same⟩
    cases here : (numbers b).drop pos with
    | nil =>
      rw [List.drop_eq_nil_iff, length] at here
      have done : validateStep b pos = .done (.returned true) := by
        unfold validateStep
        exact if_neg (Nat.not_lt.mpr here)
      rw [List.drop_of_length_le (by rw [length]; exact here)] at same
      exact .inr ⟨_, done, true, rfl, iff_of_true rfl (same.mp Utf8.isEncoded_nil)⟩
    | cons a l =>
      rw [here] at same
      rcases validateStep_steps here with ⟨form, rest, eq, form_, again⟩ | ⟨done, none_⟩
      · have long := congrArg List.length here
        rw [eq, List.length_drop, List.length_append, length] at long
        have positive := form_.length_pos
        have behind : (numbers b).drop (pos + form.length) = rest := by
          rw [← List.drop_drop, here, eq, List.drop_left]
        refine .inl ⟨_, again, ⟨by omega, ?_⟩, by omega⟩
        rw [behind, ← same, eq]
        exact form_.isEncoded_iff.symm
      · refine .inr ⟨_, done, false, rfl, iff_of_false Bool.false_ne_true fun encoded => ?_⟩
        obtain ⟨form, rest, eq, form_⟩ :=
          (same.mpr encoded).exists_form (List.cons_ne_nil a l)
        exact none_ form rest eq form_
  obtain ⟨r, run, valid, rfl, iff_⟩ := loop_ends_within (fun pos => b.length - pos) turns
    ⟨Nat.zero_le _, by rw [List.drop_zero]⟩ (Nat.lt_succ_of_le (Nat.sub_le b.length 0))
  exact ⟨valid, run, iff_⟩

end Validate

/-! ## Conversion -/

/-- The implementations of `haxe.io.Bytes` for strings of UTF-16. -/
structure Target where
  js : Bool
  /-- `StringTools.fastCodeAt(s, i) & 0x3FF` at the end of a string, on js 0. -/
  lowAtEnd : Nat
  /-- What a byte behind the end counts as in a bit operation, on js 0. -/
  behind : Nat

inductive Error where
  | outsideBounds
  /-- `String.fromCodePoint` fails. -/
  | rangeError
  deriving DecidableEq

/-- The variables of `ofString`. -/
structure Encoder where
  i : Nat
  a : List Nat

/-- What is pushed for a code point. -/
def pushed (c : Nat) : List Nat :=
  if c ≤ 0x7F then [c]
  else if c ≤ 0x7FF then [0xC0 ||| (c >>> 6), 0x80 ||| (c &&& 63)]
  else if c ≤ 0xFFFF then
    [0xE0 ||| (c >>> 12), 0x80 ||| ((c >>> 6) &&& 63), 0x80 ||| (c &&& 63)]
  else
    [0xF0 ||| (c >>> 18), 0x80 ||| ((c >>> 12) &&& 63), 0x80 ||| ((c >>> 6) &&& 63),
      0x80 ||| (c &&& 63)]

def ofStringStep (target : Target) (s : List Nat) (e : Encoder) : Next Encoder (List Nat) :=
  if e.i < s.length then
    let c := s[e.i]?.getD 0
    if 0xD800 ≤ c ∧ c ≤ 0xDBFF then
      let low := (s[e.i + 1]?.map fun c => c &&& 0x3FF).getD target.lowAtEnd
      .again ⟨e.i + 2, e.a ++ pushed (((c - 0xD7C0) <<< 10) ||| low)⟩
    else .again ⟨e.i + 1, e.a ++ pushed c⟩
  else .done e.a

/-- `Bytes.ofString`, which but on js ignores the encoding. An element of a `Uint8Array` keeps eight
bits. -/
def ofString (target : Target) (s : List Nat) (encoding : Encoding) : Option (List Nat) :=
  if target.js ∧ encoding = .rawNative then
    some (s.flatMap fun c => [c &&& 0xFF, (c >>> 8) &&& 0xFF])
  else loop (ofStringStep target s) (s.length + 1) ⟨0, []⟩

/-- The variables of `getString`. -/
structure Decoder where
  i : Nat
  s : List Nat

/-- `b[i]` -/
def byteAt (target : Target) (b : List Nat) (i : Nat) : Nat := b[i]?.getD target.behind

/-- What is appended for four bytes. -/
def fourBytes (target : Target) (u : Nat) : Except Error (List Nat) :=
  if target.js then
    if u < 65536 then .ok [u]
    else if u ≤ 0x10FFFF then
      .ok [55296 + (u - 65536) / 1024, 56320 + (u - 65536) % 1024]
    else .error .rangeError
  else .ok [(u >>> 10) + 0xD7C0, (u &&& 0x3FF) ||| 0xDC00]

def utf8Step (target : Target) (b : List Nat) (max : Nat) (d : Decoder) :
    Next Decoder (Except Error (List Nat)) :=
  if d.i < max then
    let c := byteAt target b d.i
    let c2 := byteAt target b (d.i + 1)
    let c3 := byteAt target b (d.i + 2)
    let c4 := byteAt target b (d.i + 3)
    if c < 0x80 then
      -- A byte 0 ends the loop.
      if c = 0 then .done (.ok d.s) else .again ⟨d.i + 1, d.s ++ [c]⟩
    else if c < 0xE0 then
      .again ⟨d.i + 2, d.s ++ [((c &&& 0x3F) <<< 6) ||| (c2 &&& 0x7F)]⟩
    else if c < 0xF0 then
      .again ⟨d.i + 3,
        d.s ++ [((c &&& 0x1F) <<< 12) ||| ((c2 &&& 0x7F) <<< 6) ||| (c3 &&& 0x7F)]⟩
    else
      let u := ((c &&& 0x0F) <<< 18) ||| ((c2 &&& 0x7F) <<< 12) ||| ((c3 &&& 0x7F) <<< 6) |||
        (c4 &&& 0x7F)
      match fourBytes target u with
      | .ok units => .again ⟨d.i + 4, d.s ++ units⟩
      | .error e => .done (.error e)
  else .done (.ok d.s)

def rawStep (target : Target) (b : List Nat) (max : Nat) (d : Decoder) :
    Next Decoder (Except Error (List Nat)) :=
  if d.i < max then
    let c := byteAt target b d.i ||| (byteAt target b (d.i + 1) <<< 8)
    .again ⟨d.i + 2, d.s ++ [c]⟩
  else .done (.ok d.s)

/-- `Bytes.getString` -/
def getString (target : Target) (b : List Nat) (pos len : Int) (encoding : Encoding) :
    Option (Except Error (List Nat)) :=
  if pos < 0 ∨ len < 0 ∨ pos + len > b.length then some (.error .outsideBounds)
  else
    let max := (pos + len).toNat
    if target.js ∧ encoding = .rawNative then
      loop (rawStep target b max) (len.toNat + 1) ⟨pos.toNat, []⟩
    else loop (utf8Step target b max) (len.toNat + 1) ⟨pos.toNat, []⟩

/-- `Bytes.toString` -/
def toString (target : Target) (b : List Nat) : Option (Except Error (List Nat)) :=
  getString target b 0 b.length .utf8

section Conversion

variable {target : Target} {c : Char}

theorem or_low (high : Nat) {low k : Nat} (small : low < 2 ^ k) :
    (high <<< k) ||| low = high * 2 ^ k + low := by
  rw [← Nat.shiftLeft_add_eq_or_of_lt small, Nat.shiftLeft_eq]

theorem pushed_toNat (c : Char) : pushed c.toNat = Utf8.bytes c := by
  have valid := Utf8.toNat_valid c
  have tail : ∀ n, 0x80 ||| (n &&& 63) = 128 + n % 64 := by
    intro n
    rw [Nat.and_two_pow_sub_one_eq_mod n 6]
    exact or_low 2 (k := 6) (Nat.mod_lt n (by decide))
  unfold pushed Utf8.bytes
  by_cases one : c.toNat < 128
  · rw [if_pos one, if_pos (Nat.le_of_lt_succ one)]
  · rw [if_neg one, if_neg (mt Nat.lt_succ_of_le one), tail, tail, tail]
    by_cases two : c.toNat < 2048
    · have lead : 0xC0 ||| (c.toNat >>> 6) = 192 + c.toNat / 64 := by
        rw [Nat.shiftRight_eq_div_pow]
        exact or_low 6 (k := 5) (by omega)
      rw [if_pos two, if_pos (Nat.le_of_lt_succ two), lead]
    · rw [if_neg two, if_neg (mt Nat.lt_succ_of_le two)]
      by_cases three : c.toNat < 65536
      · have lead : 0xE0 ||| (c.toNat >>> 12) = 224 + c.toNat / 4096 := by
          rw [Nat.shiftRight_eq_div_pow]
          exact or_low 14 (k := 4) (by omega)
        rw [if_pos three, if_pos (Nat.le_of_lt_succ three), lead, Nat.shiftRight_eq_div_pow]
      · have lead : 0xF0 ||| (c.toNat >>> 18) = 240 + c.toNat / 262144 := by
          rw [Nat.shiftRight_eq_div_pow]
          exact or_low 30 (k := 3) (by omega)
        rw [if_neg three, if_neg (mt Nat.lt_succ_of_le three), lead, Nat.shiftRight_eq_div_pow,
          Nat.shiftRight_eq_div_pow]

/-- The units of a code point: itself, or two that it is put together from. -/
theorem units_cases (c : Char) :
    (c.toNat < 65536 ∧ Utf16.units c = [c.toNat]) ∨
      ∃ high low, Utf16.units c = [high, low] ∧ 0xD800 ≤ high ∧ high ≤ 0xDBFF ∧
        ((high - 0xD7C0) <<< 10) ||| (low &&& 0x3FF) = c.toNat := by
  have large := Utf16.toNat_lt c
  by_cases narrow : c.toNat < 65536
  · exact .inl ⟨narrow, if_pos narrow⟩
  · refine .inr ⟨_, _, if_neg narrow, by omega, by omega, ?_⟩
    rw [Nat.and_two_pow_sub_one_eq_mod _ 10, or_low _ (Nat.mod_lt _ (by decide))]
    omega

/-- The encoder takes the units of a code point and pushes its bytes. -/
theorem ofStringStep_units {s rest : List Nat} {e : Encoder}
    (here : s.drop e.i = Utf16.units c ++ rest) :
    ofStringStep target s e = .again ⟨e.i + (Utf16.units c).length, e.a ++ Utf8.bytes c⟩ := by
  have plain := Utf16.not_surrogate c
  have read : ∀ k, s[e.i + k]? = (Utf16.units c ++ rest)[k]? := by
    intro k
    rw [← here, List.getElem?_drop]
  have first := read 0
  have second := read 1
  have inside : e.i < s.length := by
    have long := congrArg List.length here
    have positive := Utf16.length_units_pos c
    rw [List.length_drop, List.length_append] at long
    omega
  rw [Nat.add_zero] at first
  unfold ofStringStep
  rw [if_pos inside, first, second, ← pushed_toNat]
  rcases units_cases c with ⟨-, units⟩ | ⟨high, low, units, from_, up, value⟩
  · rw [units]
    dsimp only [List.cons_append, List.getElem?_cons_zero, Option.getD_some]
    rw [if_neg (by omega)]
    rfl
  · rw [units]
    dsimp only [List.cons_append, List.getElem?_cons_zero, List.getElem?_cons_succ,
      Option.map_some, Option.getD_some]
    rw [if_pos ⟨from_, up⟩, value]
    rfl

theorem ofString_loop {s a : List Nat} {i : Nat} (cs : List Char)
    (here : s.drop i = Utf16.encode cs) {fuel : Nat} (enough : cs.length < fuel) :
    loop (ofStringStep target s) fuel ⟨i, a⟩ = some (a ++ Utf8.encode cs) := by
  induction cs generalizing i a fuel with
  | nil =>
    obtain ⟨fuel, rfl⟩ := Nat.exists_eq_succ_of_ne_zero (Nat.ne_zero_of_lt enough)
    have stop : ¬ i < s.length := Nat.not_lt.mpr (List.drop_eq_nil_iff.mp here)
    have step : ofStringStep target s ⟨i, a⟩ = .done a := if_neg stop
    rw [loop_done step, Utf8.encode, List.flatMap_nil, List.append_nil]
  | cons c cs ih =>
    obtain ⟨fuel, rfl⟩ := Nat.exists_eq_succ_of_ne_zero (Nat.ne_zero_of_lt enough)
    rw [Utf16.encode_cons] at here
    rw [List.length_cons] at enough
    have step := @ofStringStep_units target c s (Utf16.encode cs) ⟨i, a⟩ here
    rw [loop_again step, Utf8.encode_cons, ← List.append_assoc]
    refine ih ?_ (Nat.lt_of_succ_lt_succ enough)
    rw [← List.drop_drop, here, List.drop_left]

theorem ofString_encode (target : Target) (cs : List Char) :
    ofString target (Utf16.encode cs) .utf8 = some (Utf8.encode cs) := by
  have short : cs.length ≤ (Utf16.encode cs).length := by
    induction cs with
    | nil => exact Nat.le_refl 0
    | cons c cs ih =>
      have := Utf16.length_units_pos c
      rw [Utf16.length_encode_cons, List.length_cons]
      omega
  unfold ofString
  rw [if_neg fun raw => Encoding.noConfusion raw.2]
  exact ofString_loop cs List.drop_zero (Nat.lt_succ_of_le short)

/-! ### Decoding -/

theorem byteAt_drop {b rest : List Nat} {i n : Nat} (here : b.drop i = rest) (k : Nat)
    (read : rest[k]? = some n) : byteAt target b (i + k) = n := by
  unfold byteAt
  rw [← List.getElem?_drop, here, read]
  rfl

/-- Both implementations append the units of a code point. -/
theorem fourBytes_units (wide : ¬ c.toNat < 65536) :
    fourBytes target c.toNat = .ok (Utf16.units c) := by
  have large := Utf16.toNat_lt c
  unfold fourBytes Utf16.units
  rw [if_neg wide]
  split
  · rw [if_pos (by omega)]
  · have low : (c.toNat &&& 0x3FF) ||| 0xDC00 = 56320 + c.toNat % 1024 := by
      rw [Nat.and_two_pow_sub_one_eq_mod _ 10, Nat.or_comm]
      exact or_low 55 (k := 10) (Nat.mod_lt _ (by decide))
    have first : (c.toNat >>> 10) + 0xD7C0 = 55296 + (c.toNat - 65536) / 1024 := by
      rw [Nat.shiftRight_eq_div_pow]
      omega
    have second : 56320 + c.toNat % 1024 = 56320 + (c.toNat - 65536) % 1024 := by omega
    rw [low, first, second]

/-- The low bits of a byte behind the leading one. -/
theorem and_tail {n : Nat} (small : n < 64) : (128 + n) &&& 0x7F = n := by
  rw [Nat.and_two_pow_sub_one_eq_mod _ 7]
  omega

/-- The bytes of a code point and what the decoder puts together from them. -/
theorem bytes_cases (c : Char) :
    (c.toNat < 0x80 ∧ Utf8.bytes c = [c.toNat]) ∨
    (∃ a b, Utf8.bytes c = [a, b] ∧ 0x80 ≤ a ∧ a < 0xE0 ∧ c.toNat < 65536 ∧
      ((a &&& 0x3F) <<< 6) ||| (b &&& 0x7F) = c.toNat) ∨
    (∃ a b d, Utf8.bytes c = [a, b, d] ∧ 0xE0 ≤ a ∧ a < 0xF0 ∧ c.toNat < 65536 ∧
      ((a &&& 0x1F) <<< 12) ||| ((b &&& 0x7F) <<< 6) ||| (d &&& 0x7F) = c.toNat) ∨
    ∃ a b d e, Utf8.bytes c = [a, b, d, e] ∧ 0xF0 ≤ a ∧ ¬ c.toNat < 65536 ∧
      ((a &&& 0x0F) <<< 18) ||| ((b &&& 0x7F) <<< 12) ||| ((d &&& 0x7F) <<< 6) |||
        (e &&& 0x7F) = c.toNat := by
  have large := Utf16.toNat_lt c
  unfold Utf8.bytes
  split
  case isTrue one => exact .inl ⟨one, rfl⟩
  case isFalse wide =>
    right
    split
    case isTrue two =>
      refine .inl ⟨_, _, rfl, by omega, by omega, by omega, ?_⟩
      rw [and_tail (Nat.mod_lt _ (by decide)), Nat.and_two_pow_sub_one_eq_mod _ 6,
        or_low _ (show c.toNat % 64 < 2 ^ 6 by omega)]
      omega
    case isFalse wider =>
      right
      split
      case isTrue three =>
        refine .inl ⟨_, _, _, rfl, by omega, by omega, three, ?_⟩
        rw [and_tail (Nat.mod_lt _ (by decide)), and_tail (Nat.mod_lt _ (by decide)),
          Nat.and_two_pow_sub_one_eq_mod _ 5, Nat.or_assoc,
          or_low _ (show c.toNat % 64 < 2 ^ 6 by omega),
          or_low _ (show c.toNat / 64 % 64 * 2 ^ 6 + c.toNat % 64 < 2 ^ 12 by omega)]
        omega
      case isFalse widest =>
        refine .inr ⟨_, _, _, _, rfl, by omega, widest, ?_⟩
        rw [and_tail (Nat.mod_lt _ (by decide)), and_tail (Nat.mod_lt _ (by decide)),
          and_tail (Nat.mod_lt _ (by decide)), Nat.and_two_pow_sub_one_eq_mod _ 4, Nat.or_assoc,
          Nat.or_assoc, or_low _ (show c.toNat % 64 < 2 ^ 6 by omega),
          or_low _ (show c.toNat / 64 % 64 * 2 ^ 6 + c.toNat % 64 < 2 ^ 12 by omega),
          or_low _ (show c.toNat / 4096 % 64 * 2 ^ 12 +
            (c.toNat / 64 % 64 * 2 ^ 6 + c.toNat % 64) < 2 ^ 18 by omega)]
        omega

/-- The decoder takes the bytes of a code point and appends its units. -/
theorem utf8Step_bytes {b rest : List Nat} {d : Decoder} {max : Nat} (nonzero : c ≠ '\x00')
    (here : b.drop d.i = Utf8.bytes c ++ rest) (inside : d.i < max) :
    utf8Step target b max d =
      .again ⟨d.i + (Utf8.bytes c).length, d.s ++ Utf16.units c⟩ := by
  have zero : c.toNat ≠ 0 := fun zero => nonzero (Char.toNat_inj.mp zero)
  have read : ∀ k n, (Utf8.bytes c ++ rest)[k]? = some n → byteAt target b (d.i + k) = n :=
    fun k n => byteAt_drop here k
  have first : ∀ n, (Utf8.bytes c ++ rest)[0]? = some n → byteAt target b d.i = n := read 0
  unfold utf8Step
  rw [if_pos inside]
  dsimp only
  rcases bytes_cases c with ⟨small, bytes⟩ | ⟨x, y, bytes, low, high, narrow, value⟩ |
    ⟨x, y, z, bytes, low, high, narrow, value⟩ | ⟨x, y, z, w, bytes, low, wide, value⟩
  · have units : Utf16.units c = [c.toNat] := if_pos (by omega)
    rw [bytes] at first
    rw [first _ rfl, if_pos small, if_neg zero, bytes, units]
    rfl
  · have units : Utf16.units c = [c.toNat] := if_pos narrow
    rw [bytes] at first read
    rw [first _ rfl, read 1 _ rfl, if_neg (Nat.not_lt.mpr low), if_pos high, value, bytes, units]
    rfl
  · have units : Utf16.units c = [c.toNat] := if_pos narrow
    rw [bytes] at first read
    rw [first _ rfl, read 1 _ rfl, read 2 _ rfl, if_neg (by omega), if_neg (by omega),
      if_pos high, value, bytes, units]
    rfl
  · rw [bytes] at first read
    rw [first _ rfl, read 1 _ rfl, read 2 _ rfl, read 3 _ rfl, if_neg (by omega),
      if_neg (by omega), if_neg (by omega), value, fourBytes_units wide, bytes]
    rfl

/-- A byte 0 ends the loop. -/
theorem utf8Step_zero {b rest : List Nat} {d : Decoder} {max : Nat}
    (here : b.drop d.i = 0 :: rest) : utf8Step target b max d = .done (.ok d.s) := by
  have first : byteAt target b d.i = 0 := byteAt_drop here 0 rfl
  unfold utf8Step
  split
  · dsimp only
    rw [first, if_pos (by decide), if_pos rfl]
  · rfl

/-- The part of a text in front of U+0000. -/
def untilZero (cs : List Char) : List Char := cs.takeWhile fun c => c != '\x00'

theorem utf8_loop {b rest s : List Nat} {i max : Nat} (cs : List Char)
    (here : b.drop i = Utf8.encode cs ++ rest) (ends : max = i + (Utf8.encode cs).length)
    {fuel : Nat} (enough : (Utf8.encode cs).length < fuel) :
    loop (utf8Step target b max) fuel ⟨i, s⟩ = some (.ok (s ++ Utf16.encode (untilZero cs))) := by
  induction cs generalizing i s fuel with
  | nil =>
    obtain ⟨fuel, rfl⟩ := Nat.exists_eq_succ_of_ne_zero (Nat.ne_zero_of_lt enough)
    have step : utf8Step target b max ⟨i, s⟩ = .done (.ok s) :=
      if_neg (Nat.not_lt.mpr (Nat.le_of_eq ends))
    rw [loop_done step]
    exact congrArg (fun s => some (Except.ok s)) (List.append_nil s).symm
  | cons c cs ih =>
    obtain ⟨fuel, rfl⟩ := Nat.exists_eq_succ_of_ne_zero (Nat.ne_zero_of_lt enough)
    have positive := (Utf8.form_bytes c).length_pos
    rw [Utf8.encode_cons, List.length_append] at ends enough
    rw [Utf8.encode_cons, List.append_assoc] at here
    by_cases zero : c = '\x00'
    · have step : utf8Step target b max ⟨i, s⟩ = .done (.ok s) := by
        subst zero
        exact utf8Step_zero here
      have nothing : untilZero (c :: cs) = [] := by
        unfold untilZero
        rw [List.takeWhile_cons_of_neg (by rw [zero]; decide)]
      rw [loop_done step, nothing]
      exact congrArg (fun s => some (Except.ok s)) (List.append_nil s).symm
    · have step := @utf8Step_bytes target c b _ ⟨i, s⟩ max zero here (by dsimp only; omega)
      have more : untilZero (c :: cs) = c :: untilZero cs := by
        unfold untilZero
        exact List.takeWhile_cons_of_pos (bne_iff_ne.mpr zero)
      rw [loop_again step, more, Utf16.encode_cons, ← List.append_assoc]
      refine ih ?_ ?_ ?_
      · rw [← List.drop_drop, here, List.drop_left]
      · dsimp only
        omega
      · omega

/-- What is read of a text between other bytes. -/
theorem getString_encode (target : Target) (before after : List Nat) (cs : List Char) :
    getString target (before ++ (Utf8.encode cs ++ after)) before.length
        (Utf8.encode cs).length .utf8 =
      some (.ok (Utf16.encode (untilZero cs))) := by
  have inside : ¬ ((before.length : Int) < 0 ∨ ((Utf8.encode cs).length : Int) < 0 ∨
      (before.length : Int) + (Utf8.encode cs).length >
        ((before ++ (Utf8.encode cs ++ after)).length : Nat)) := by
    rw [List.length_append, List.length_append]
    omega
  unfold getString
  rw [if_neg inside]
  dsimp only
  rw [if_neg fun raw => Encoding.noConfusion raw.2]
  exact @utf8_loop target _ after [] before.length _ cs List.drop_left rfl _ (Nat.lt_succ_self _)

theorem toString_encode (target : Target) (cs : List Char) :
    toString target (Utf8.encode cs) = some (.ok (Utf16.encode (untilZero cs))) := by
  have all := getString_encode target [] [] cs
  rw [List.nil_append, List.append_nil] at all
  exact all

end Conversion

end Haxe.Source.BytesText
