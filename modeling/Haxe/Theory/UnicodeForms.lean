import Mathlib.Data.List.Basic

/-!
# UTF-8

The bytes of code points, and how many bytes follow a leading one.
-/

namespace Haxe.Theory.Utf8

/-- The bytes of one code point. -/
def bytes (c : Char) : List Nat :=
  if c.toNat < 128 then [c.toNat]
  else if c.toNat < 2048 then [192 + c.toNat / 64, 128 + c.toNat % 64]
  else if c.toNat < 65536 then
    [224 + c.toNat / 4096, 128 + c.toNat / 64 % 64, 128 + c.toNat % 64]
  else
    [240 + c.toNat / 262144, 128 + c.toNat / 4096 % 64, 128 + c.toNat / 64 % 64,
      128 + c.toNat % 64]

/-- The number of bytes that a leading byte announces behind it. -/
def following (b : Nat) : Nat :=
  if b < 128 then 0 else if b < 224 then 1 else if b < 240 then 2 else 3

/-- A code point outside of ASCII has a leading byte, and as many bytes as it announces. -/
theorem bytes_leading {c : Char} (wide : 128 ≤ c.toNat) (bound : c.toNat < 1114112) :
    ∃ b rest, bytes c = b :: rest ∧ 192 ≤ b ∧ b < 248 ∧ rest.length = following b ∧
      ∀ x ∈ rest, 128 ≤ x := by
  unfold bytes
  rw [if_neg (Nat.not_lt.mpr wide)]
  split
  case isTrue two =>
    refine ⟨_, _, rfl, Nat.le_add_right _ _, by omega, ?_, ?_⟩
    · unfold following
      rw [if_neg (by omega), if_pos (by omega)]
      rfl
    · intro x member
      simp only [List.mem_cons, List.not_mem_nil, or_false] at member
      omega
  case isFalse more =>
    split
    case isTrue three =>
      refine ⟨_, _, rfl, by omega, by omega, ?_, ?_⟩
      · unfold following
        rw [if_neg (by omega), if_neg (by omega), if_pos (by omega)]
        rfl
      · intro x member
        simp only [List.mem_cons, List.not_mem_nil, or_false] at member
        omega
    case isFalse four =>
      refine ⟨_, _, rfl, by omega, by omega, ?_, ?_⟩
      · unfold following
        rw [if_neg (by omega), if_neg (by omega), if_neg (by omega)]
        rfl
      · intro x member
        simp only [List.mem_cons, List.not_mem_nil, or_false] at member
        omega

theorem bytes_lt {c : Char} (b : Nat) (member : b ∈ bytes c) : b < 256 := by
  have bound : c.toNat < 1114112 := by
    obtain below | above := c.valid
    · exact Nat.lt_trans below (by decide)
    · exact above.2
  unfold bytes at member
  repeat' split at member
  all_goals
    simp only [List.mem_cons, List.not_mem_nil, or_false] at member
    omega

theorem toNat_valid (c : Char) :
    c.toNat < 55296 ∨ 57343 < c.toNat ∧ c.toNat < 1114112 := c.valid

/-- A byte behind the leading one. -/
def Tail (b : Nat) : Prop := 128 ≤ b ∧ b < 192

/-- The shortest forms: a leading byte of a longer form restricts the byte behind it. -/
inductive Form : List Nat → Prop
  | one {a : Nat} : a < 128 → Form [a]
  | two {a b : Nat} : 194 ≤ a → a < 224 → Tail b → Form [a, b]
  | three {a b c : Nat} : 224 ≤ a → a < 240 → (a = 224 → 160 ≤ b) → (a = 237 → b < 160) →
      Tail b → Tail c → Form [a, b, c]
  | four {a b c d : Nat} : 240 ≤ a → a < 245 → (a = 240 → 144 ≤ b) → (a = 244 → b < 144) →
      Tail b → Tail c → Tail d → Form [a, b, c, d]

theorem form_bytes (c : Char) : Form (bytes c) := by
  have valid := toNat_valid c
  unfold bytes
  split
  case isTrue one => exact .one one
  case isFalse wide =>
    split
    case isTrue two => exact .two (by omega) (by omega) ⟨by omega, by omega⟩
    case isFalse wider =>
      split
      case isTrue three =>
        exact .three (by omega) (by omega) (by omega) (by omega) ⟨by omega, by omega⟩
          ⟨by omega, by omega⟩
      case isFalse widest =>
        exact .four (by omega) (by omega) (by omega) (by omega) ⟨by omega, by omega⟩
          ⟨by omega, by omega⟩ ⟨by omega, by omega⟩

/-- The scalar value of a number. -/
theorem exists_char {n : Nat} (valid : n < 55296 ∨ 57343 < n ∧ n < 1114112) :
    ∃ c : Char, c.toNat = n :=
  ⟨Char.ofNatAux n valid, rfl⟩

theorem Form.exists_char {l : List Nat} (form : Form l) : ∃ c : Char, bytes c = l := by
  cases form with
  | @one a small =>
    obtain ⟨c, value⟩ := Utf8.exists_char (n := a) (by omega)
    refine ⟨c, ?_⟩
    unfold bytes
    rw [value, if_pos small]
  | @two a b low high tail =>
    obtain ⟨low', high'⟩ := tail
    obtain ⟨c, value⟩ := Utf8.exists_char (n := (a - 192) * 64 + (b - 128)) (by omega)
    refine ⟨c, ?_⟩
    unfold bytes
    rw [value, if_neg (by omega), if_pos (by omega)]
    simp only [List.cons.injEq, and_true]
    omega
  | @three a b c low high least most tail tail' =>
    obtain ⟨bLow, bHigh⟩ := tail
    obtain ⟨cLow, cHigh⟩ := tail'
    obtain ⟨char, value⟩ :=
      Utf8.exists_char (n := (a - 224) * 4096 + (b - 128) * 64 + (c - 128)) (by omega)
    refine ⟨char, ?_⟩
    unfold bytes
    rw [value, if_neg (by omega), if_neg (by omega), if_pos (by omega)]
    simp only [List.cons.injEq, and_true]
    omega
  | @four a b c d low high least most tail tail' tail'' =>
    obtain ⟨bLow, bHigh⟩ := tail
    obtain ⟨cLow, cHigh⟩ := tail'
    obtain ⟨dLow, dHigh⟩ := tail''
    obtain ⟨char, value⟩ := Utf8.exists_char
      (n := (a - 240) * 262144 + (b - 128) * 4096 + (c - 128) * 64 + (d - 128)) (by omega)
    refine ⟨char, ?_⟩
    unfold bytes
    rw [value, if_neg (by omega), if_neg (by omega), if_neg (by omega)]
    simp only [List.cons.injEq, and_true]
    omega

/-- A text that begins with a form, by its leading byte. -/
theorem Form.leading {a : Nat} {l form rest : List Nat} (same : a :: l = form ++ rest)
    (form_ : Form form) :
    a < 128 ∨
      (194 ≤ a ∧ a < 224 ∧ ∃ b l', l = b :: l' ∧ Tail b) ∨
      (224 ≤ a ∧ a < 240 ∧ ∃ b c l', l = b :: c :: l' ∧ (a = 224 → 160 ≤ b) ∧
        (a = 237 → b < 160) ∧ Tail b ∧ Tail c) ∨
      (240 ≤ a ∧ a < 245 ∧ ∃ b c d l', l = b :: c :: d :: l' ∧ (a = 240 → 144 ≤ b) ∧
        (a = 244 → b < 144) ∧ Tail b ∧ Tail c ∧ Tail d) := by
  cases form_ with
  | one small =>
    obtain ⟨rfl, -⟩ := List.cons.inj same
    exact .inl small
  | two low high tail =>
    obtain ⟨rfl, behind⟩ := List.cons.inj same
    exact .inr (.inl ⟨low, high, _, rest, behind, tail⟩)
  | three low high least most tail tail' =>
    obtain ⟨rfl, behind⟩ := List.cons.inj same
    exact .inr (.inr (.inl ⟨low, high, _, _, rest, behind, least, most, tail, tail'⟩))
  | four low high least most tail tail' tail'' =>
    obtain ⟨rfl, behind⟩ := List.cons.inj same
    exact .inr (.inr (.inr
      ⟨low, high, _, _, _, rest, behind, least, most, tail, tail', tail''⟩))

theorem Form.length {l : List Nat} (form : Form l) :
    ∃ a rest, l = a :: rest ∧ rest.length = following a := by
  cases form with
  | @one a small => exact ⟨a, _, rfl, (if_pos small).symm⟩
  | @two a b low high tail =>
    refine ⟨a, _, rfl, ?_⟩
    rw [following, if_neg (by omega), if_pos high]
    rfl
  | @three a b c low high least most tail tail' =>
    refine ⟨a, _, rfl, ?_⟩
    rw [following, if_neg (by omega), if_neg (by omega), if_pos high]
    rfl
  | @four a b c d low high least most tail tail' tail'' =>
    refine ⟨a, _, rfl, ?_⟩
    rw [following, if_neg (by omega), if_neg (by omega), if_neg (by omega)]
    rfl

/-- The leading byte says where a form ends. -/
theorem Form.prefix_free {l l' rest rest' : List Nat} (form : Form l) (form' : Form l')
    (same : l ++ rest = l' ++ rest') : l = l' ∧ rest = rest' := by
  obtain ⟨a, more, rfl, length⟩ := form.length
  obtain ⟨a', more', rfl, length'⟩ := form'.length
  obtain ⟨rfl, -⟩ := List.cons.inj same
  exact List.append_inj same (by rw [List.length_cons, List.length_cons, length, length'])

theorem Form.length_pos {l : List Nat} (form : Form l) : 0 < l.length := by
  obtain ⟨a, rest, rfl, -⟩ := form.length
  exact Nat.succ_pos _

def encode (cs : List Char) : List Nat := cs.flatMap bytes

theorem encode_cons (c : Char) (cs : List Char) : encode (c :: cs) = bytes c ++ encode cs :=
  List.flatMap_cons

/-- A text in UTF-8. -/
def IsEncoded (l : List Nat) : Prop := ∃ cs, l = encode cs

theorem isEncoded_nil : IsEncoded [] := ⟨[], rfl⟩

/-- A form in front neither makes a text nor breaks it. -/
theorem Form.isEncoded_iff {l rest : List Nat} (form : Form l) :
    IsEncoded (l ++ rest) ↔ IsEncoded rest := by
  obtain ⟨c, rfl⟩ := form.exists_char
  constructor
  · rintro ⟨cs, same⟩
    cases cs with
    | nil =>
      have empty := congrArg List.length same
      have positive := form.length_pos
      rw [List.length_append] at empty
      change _ = 0 at empty
      omega
    | cons c' cs =>
      rw [encode_cons] at same
      exact ⟨cs, (form.prefix_free (form_bytes c') same).2⟩
  · rintro ⟨cs, rfl⟩
    exact ⟨c :: cs, (encode_cons c cs).symm⟩

/-- A text begins with a form. -/
theorem IsEncoded.exists_form {l : List Nat} (encoded : IsEncoded l) (nonempty : l ≠ []) :
    ∃ form rest, l = form ++ rest ∧ Form form := by
  obtain ⟨cs, rfl⟩ := encoded
  cases cs with
  | nil => exact absurd rfl nonempty
  | cons c cs => exact ⟨bytes c, encode cs, encode_cons c cs, form_bytes c⟩

end Haxe.Theory.Utf8

/-!
## UTF-16

The code units of code points, and where each code point starts.
-/

namespace Haxe.Theory.Utf16

/-- The code units of one code point. -/
def units (c : Char) : List Nat :=
  if c.toNat < 65536 then [c.toNat]
  else [55296 + (c.toNat - 65536) / 1024, 56320 + (c.toNat - 65536) % 1024]

def encode (cs : List Char) : List Nat := cs.flatMap units

theorem encode_cons (c : Char) (cs : List Char) : encode (c :: cs) = units c ++ encode cs :=
  List.flatMap_cons

theorem encode_append (cs cs' : List Char) : encode (cs ++ cs') = encode cs ++ encode cs' :=
  List.flatMap_append

theorem toNat_lt (c : Char) : c.toNat < 1114112 := by
  obtain below | above := c.valid
  · exact Nat.lt_trans below (by decide)
  · exact above.2

theorem not_surrogate (c : Char) : ¬ (55296 ≤ c.toNat ∧ c.toNat ≤ 57343) := by
  obtain below | above := c.valid
  · exact fun surrogate => absurd below (Nat.not_lt.mpr surrogate.1)
  · exact fun surrogate => absurd above.1 (Nat.not_lt.mpr surrogate.2)

theorem length_units (c : Char) : (units c).length = if c.toNat < 65536 then 1 else 2 := by
  unfold units
  split <;> rfl

theorem length_units_pos (c : Char) : 0 < (units c).length := by
  rw [length_units]
  split <;> decide

theorem length_encode_cons (c : Char) (cs : List Char) :
    (encode (c :: cs)).length = (units c).length + (encode cs).length := by
  rw [encode_cons, List.length_append]

theorem encode_eq_nil {cs : List Char} (empty : (encode cs).length = 0) : cs = [] := by
  cases cs with
  | nil => rfl
  | cons c cs =>
    have := length_units_pos c
    rw [length_encode_cons] at empty
    omega

/-- No code point starts like another one. -/
theorem units_prefix_free {c c' : Char} {us us' : List Nat}
    (same : units c ++ us = units c' ++ us') : c = c' ∧ us = us' := by
  have plain := not_surrogate c
  have plain' := not_surrogate c'
  have large := toNat_lt c
  have large' := toNat_lt c'
  unfold units at same
  split at same
  · split at same
    · obtain ⟨head, tail⟩ := List.cons.inj same
      exact ⟨Char.toNat_inj.mp head, tail⟩
    · have head := (List.cons.inj same).1
      omega
  · split at same
    · have head := (List.cons.inj same).1
      omega
    · obtain ⟨high, rest⟩ := List.cons.inj same
      obtain ⟨low, tail⟩ := List.cons.inj rest
      exact ⟨Char.toNat_inj.mp (by omega), tail⟩

theorem encode_injective {cs cs' : List Char} (same : encode cs = encode cs') : cs = cs' := by
  induction cs generalizing cs' with
  | nil =>
    exact (encode_eq_nil (congrArg List.length same.symm)).symm
  | cons c cs ih =>
    cases cs' with
    | nil => exact encode_eq_nil (congrArg List.length same)
    | cons c' cs' =>
      rw [encode_cons, encode_cons] at same
      obtain ⟨rfl, rest⟩ := units_prefix_free same
      rw [ih rest]

/-- The offset of a code point. -/
def offset (cs : List Char) (i : Nat) : Nat := (encode (cs.take i)).length

theorem offset_succ {cs : List Char} {i : Nat} (inside : i < cs.length) :
    offset cs (i + 1) = offset cs i + (units (cs[i])).length := by
  unfold offset
  rw [List.take_succ_eq_append_getElem inside, encode_append, List.length_append,
    length_encode_cons]
  rfl

theorem offset_length (cs : List Char) : offset cs cs.length = (encode cs).length := by
  unfold offset
  rw [List.take_length]

theorem length_eq (cs : List Char) (i : Nat) :
    (encode cs).length = offset cs i + (encode (cs.drop i)).length := by
  unfold offset
  rw [← List.length_append, ← encode_append, List.take_append_drop]

/-- The offsets of the code points are in front of the end. -/
theorem offset_lt_iff (cs : List Char) (i : Nat) :
    offset cs i < (encode cs).length ↔ i < cs.length := by
  rw [length_eq cs i]
  constructor
  · intro before
    by_contra last
    rw [List.drop_of_length_le (Nat.not_lt.mp last)] at before
    exact Nat.lt_irrefl _ before
  · intro inside
    rw [List.drop_eq_getElem_cons inside, length_encode_cons]
    have := length_units_pos cs[i]
    omega

theorem offset_eq_iff {cs : List Char} {i : Nat} (within : i ≤ cs.length) :
    offset cs i = (encode cs).length ↔ i = cs.length := by
  constructor
  · intro last
    by_contra other
    have := (offset_lt_iff cs i).mpr (Nat.lt_of_le_of_ne within other)
    omega
  · rintro rfl
    exact offset_length cs

theorem drop_offset (cs : List Char) (i : Nat) :
    (encode cs).drop (offset cs i) = encode (cs.drop i) := by
  unfold offset
  rw [← List.take_append_drop i cs, encode_append, List.take_append_drop, List.drop_left]

/-- The code units between two code points. -/
theorem take_drop_offset (cs : List Char) {i j : Nat} (order : i ≤ j) :
    ((encode cs).drop (offset cs i)).take (offset cs j - offset cs i) =
      encode ((cs.drop i).take (j - i)) := by
  have before : offset cs j = offset cs i + (encode ((cs.drop i).take (j - i))).length := by
    unfold offset
    rw [← List.length_append, ← encode_append, ← List.take_add, Nat.add_sub_of_le order]
  rw [before, Nat.add_sub_cancel_left, drop_offset]
  have split := encode_append ((cs.drop i).take (j - i)) ((cs.drop i).drop (j - i))
  rw [List.take_append_drop] at split
  rw [split, List.take_left]

/-- The code units at a code point. -/
theorem getElem?_offset {cs : List Char} {i : Nat} (inside : i < cs.length) (k : Nat)
    (part : k < (units cs[i]).length) : (encode cs)[offset cs i + k]? = (units cs[i])[k]? := by
  rw [← List.getElem?_drop, drop_offset, List.drop_eq_getElem_cons inside, encode_cons,
    List.getElem?_append_left part]

end Haxe.Theory.Utf16
