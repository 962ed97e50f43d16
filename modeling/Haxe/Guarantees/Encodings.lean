import Mathlib.Data.List.TakeWhile
import Haxe.Source.Std.BytesText
import Haxe.Source.Std.BaseCodeBits
import Haxe.Source.Core.Escapes

/-!
# Bytes that are texts

`validate` accepts the texts in UTF-8 and nothing else. A string is converted to UTF-8 and back,
unless it has U+0000.
-/

namespace Haxe.Guarantees.BytesText

open Theory Source.BytesText

/-- The bytes are judged without a read outside of them, and accepted if they are the encoding of
scalar values. -/
theorem validate_iff (b : List UInt8) : ∃ valid,
    validate b .utf8 = some (.returned valid) ∧
      (valid = true ↔ ∃ cs : List Char, b.map UInt8.toNat = cs.flatMap Utf8.bytes) :=
  validate_utf8 b

/-- A surrogate, a longer form than the shortest, a value that is too large, and a form that is cut
off. -/
example : [[0xED, 0xA0, 0x80], [0xC0, 0x80], [0xF4, 0x90, 0x80, 0x80], [0xE2, 0x82]].map
    (fun b => validate b .utf8) = List.replicate 4 (some (.returned false)) := by
  decide

/-- What the conversions of a text are for. -/
structure Converts (target : Target) (cs : List Char) : Prop where
  encodes : ofString target (Utf16.encode cs) .utf8 = some (Utf8.encode cs)
  trips : (ofString target (Utf16.encode cs) .utf8).bind (toString target) =
    some (.ok (Utf16.encode cs))
  /-- The text is read where it stands between other bytes. -/
  reads : ∀ before after,
    getString target (before ++ (Utf8.encode cs ++ after)) before.length
      (Utf8.encode cs).length .utf8 = some (.ok (Utf16.encode cs))
  /-- The decoder consumes the bytes of a scalar value. -/
  consumes : ∀ c ∈ cs, ∀ (b rest : List Nat) (max : Nat) (d : Decoder),
    b.drop d.i = Utf8.bytes c ++ rest → d.i < max →
      utf8Step target b max d =
        .again ⟨d.i + (Utf8.bytes c).length, d.s ++ Utf16.units c⟩

theorem untilZero_eq {cs : List Char} (nonzero : '\x00' ∉ cs) : untilZero cs = cs := by
  unfold untilZero
  rw [List.takeWhile_eq_self_iff]
  intro c member
  rw [bne_iff_ne]
  rintro rfl
  exact nonzero member

theorem converts_iff (target : Target) (cs : List Char) : Converts target cs ↔ '\x00' ∉ cs := by
  constructor
  · intro converts zero
    have trips := converts.trips
    rw [ofString_encode, Option.bind_some, toString_encode, Option.some.injEq, Except.ok.injEq]
      at trips
    have same : untilZero cs = cs := Utf16.encode_injective trips
    unfold untilZero at same
    rw [List.takeWhile_eq_self_iff] at same
    exact absurd (same _ zero) (by decide)
  · intro nonzero
    have same := untilZero_eq nonzero
    refine ⟨ofString_encode target cs, ?_, ?_, ?_⟩
    · rw [ofString_encode, Option.bind_some, toString_encode, same]
    · intro before after
      rw [getString_encode, same]
    · intro c member b rest max d here inside
      exact utf8Step_bytes (fun zero => nonzero (zero ▸ member)) here inside

def js : Target := ⟨true, 0, 0⟩

/-- `"a\x00b"` comes back as `"a"`. -/
theorem zero_ends_string :
    (ofString js (Utf16.encode ['a', '\x00', 'b']) .utf8).bind (toString js) =
      some (.ok (Utf16.encode ['a'])) ∧
    ¬ ∀ cs : List Char, (ofString js (Utf16.encode cs) .utf8).bind (toString js) =
      some (.ok (Utf16.encode cs)) := by
  have ends : (ofString js (Utf16.encode ['a', '\x00', 'b']) .utf8).bind (toString js) =
      some (.ok (Utf16.encode ['a'])) := by
    rw [ofString_encode, Option.bind_some, toString_encode]
    rfl
  refine ⟨ends, fun claim => ?_⟩
  have whole := claim ['a', '\x00', 'b']
  rw [ends] at whole
  exact absurd whole (by decide)

end Haxe.Guarantees.BytesText

/-!
## Decoding undoes encoding

`BaseCode` and `Base64` lose no bit as long as the number of bits of the bytes is an `Int`. Beyond
that it wraps, and too few bytes are encoded.
-/

namespace Haxe.Guarantees.BaseCode

open Theory.BitStrings Source.Crypto Source.Crypto.BaseCode

/-- `BaseCode` on an alphabet of `2^n` bytes. -/
def RoundTrips (base : List Byte) (n : Nat) (b : List Byte) : Prop :=
  ∃ code e, create base = some code ∧ code.encodeBytes b = some e ∧
    e.length = (b.length * 8 + n - 1) / n ∧ code.decodeBytes e = some b

/-- `Base64`, with the padding and without it. -/
def Base64Trips (b : List Byte) : Prop :=
  ∀ complement : Bool,
    (∃ e, Base64.encode b complement = some e ∧ Base64.decode e complement = some b) ∧
      ∃ e, Base64.urlEncode b complement = some e ∧ Base64.urlDecode e complement = some b

/-- The number of bits is an `Int`. -/
def Short (b : List Byte) : Prop := b.length * 8 < 0x80000000

variable {base : List Byte} {n : Nat} {b e : List Byte} {code : Source.Crypto.BaseCode}

theorem roundTrips_of_short (alphabet : Alphabet base n) (short : Short b) :
    ∃ e, (Source.Crypto.BaseCode.mk base n).encodeBytes b = some e ∧
      e.length = (b.length * 8 + n - 1) / n ∧ (∀ x ∈ e, x ∈ base) ∧
      (Source.Crypto.BaseCode.mk base n).decodeBytes e = some b := by
  have positive := alphabet.positive
  have bounds := alphabet.small
  obtain ⟨values, e, encoded, mapped, small, count, bits⟩ := encodeBytes_bits alphabet short
  have lengths := length_mapM mapped
  have size := Nat.div_add_mod (b.length * 8 + n - 1) n
  have rest := Nat.mod_lt (b.length * 8 + n - 1) positive
  have product : e.length * n = n * ((b.length * 8 + n - 1) / n) := by
    rw [lengths, count, Nat.mul_comm]
  unfold Short at short
  refine ⟨e, encoded, lengths.trans count, ?_,
    decodeBytes_bits alphabet small mapped (by omega) (by omega) bits⟩
  intro x member
  obtain ⟨i, found⟩ := List.mem_iff_getElem?.mp member
  rw [getElem?_mapM mapped i] at found
  obtain ⟨value, -, got⟩ := Option.bind_eq_some_iff.mp found
  exact List.mem_of_getElem? got

section Long

theorem wrap_le {x : Int} (long : 0x80000000 ≤ x) : wrap x ≤ x - 0x100000000 := by
  unfold wrap
  rw [Int.bmod_def]
  split <;> omega

theorem wrap_le_self {x : Int} (positive : 0 ≤ x) : wrap x ≤ x := by
  unfold wrap
  rw [Int.bmod_def]
  split <;> omega

theorem length_pump {digit : Nat → Option (BitVec 32)} {inBits outBits count : Nat}
    {emit : BitVec 32 → Option Byte} {acc acc' : Accumulator} {bytes : List Byte}
    (pumped : pump digit inBits outBits emit count acc = some (bytes, acc')) :
    bytes.length = count := by
  induction count generalizing acc bytes with
  | zero =>
    obtain ⟨rfl, -⟩ := Prod.mk.inj (Option.some.inj pumped)
    rfl
  | succ count ih =>
    obtain ⟨full, -, pumped⟩ := Option.bind_eq_some_iff.mp pumped
    obtain ⟨byte, -, pumped⟩ := Option.bind_eq_some_iff.mp pumped
    obtain ⟨⟨others, last⟩, behind, pumped⟩ := Option.bind_eq_some_iff.mp pumped
    obtain ⟨rfl, rfl⟩ := Prod.mk.inj (Option.some.inj pumped)
    exact congrArg Nat.succ (ih behind)

/-- The length of what is encoded goes back to the wrapped number of bits. -/
theorem length_encodeBytes (encoded : code.encodeBytes b = some e) :
    e.length ≤ ((wrap (b.length * 8)).tdiv code.nbits).toNat + 1 := by
  unfold encodeBytes at encoded
  obtain ⟨out, -, encoded⟩ := Option.bind_eq_some_iff.mp encoded
  obtain ⟨pumped, loop, encoded⟩ := Option.bind_eq_some_iff.mp encoded
  have count := @length_pump _ _ _ _ _ _ pumped.2 pumped.1 loop
  dsimp only at encoded
  split at encoded
  · obtain ⟨last, -, encoded⟩ := Option.bind_eq_some_iff.mp encoded
    obtain rfl := Option.some.inj encoded
    rw [List.length_append, count]
    exact Nat.le_refl _
  · obtain rfl := Option.some.inj encoded
    rw [count]
    exact Nat.le_succ _

theorem length_decodeBytes (decoded : code.decodeBytes e = some b) :
    b.length * 8 ≤ e.length * code.nbits := by
  unfold decodeBytes at decoded
  obtain ⟨size, allocated, decoded⟩ := Option.bind_eq_some_iff.mp decoded
  obtain ⟨pumped, loop, decoded⟩ := Option.bind_eq_some_iff.mp decoded
  have count := @length_pump _ _ _ _ _ _ pumped.2 pumped.1 loop
  obtain rfl := Option.some.inj decoded
  have below := wrap_le_self (Int.natCast_nonneg (e.length * code.nbits))
  unfold alloc at allocated
  split at allocated
  · cases allocated
  · rename_i positive
    have size_eq := Option.some.inj allocated
    rw [Int.shiftRight_eq_div_pow, ← Int.natCast_mul] at size_eq positive
    rw [count]
    omega

variable (long : ¬ Short b)
include long

/-- What wraps is encoded into too few digits. -/
theorem few_digits (positive : 0 < code.nbits)
    (small : code.nbits ≤ 8) (encoded : code.encodeBytes b = some e) :
    e.length * code.nbits < b.length * 8 := by
  have bound := length_encodeBytes encoded
  have wrapped : wrap (b.length * 8) ≤ b.length * 8 - 0x100000000 := by
    apply wrap_le
    unfold Short at long
    omega
  have digits : ((wrap (b.length * 8)).tdiv code.nbits).toNat * code.nbits ≤ b.length * 8 - 16 := by
    unfold Short at long
    rcases Int.le_total 0 (wrap (b.length * 8)) with kept | negative
    · obtain ⟨bits, equal⟩ := Int.eq_ofNat_of_zero_le kept
      rw [equal] at wrapped ⊢
      rw [← Int.ofNat_tdiv, Int.toNat_natCast]
      have whole := Nat.div_mul_le_self bits code.nbits
      omega
    · have mirrored : 0 ≤ (-wrap (b.length * 8)).tdiv code.nbits :=
        Int.tdiv_nonneg (by omega) (Int.natCast_nonneg _)
      rw [Int.neg_tdiv] at mirrored
      have none_left : (wrap (b.length * 8)).tdiv code.nbits ≤ 0 := by omega
      rw [Int.toNat_of_nonpos none_left, Nat.zero_mul]
      exact Nat.zero_le _
  have product := Nat.mul_le_mul_right code.nbits bound
  rw [Nat.succ_mul] at product
  unfold Short at long
  omega

end Long

theorem roundTrips_iff (alphabet : Alphabet base n) (b : List Byte) :
    RoundTrips base n b ↔ Short b := by
  have positive := alphabet.positive
  have created := create_alphabet alphabet
  constructor
  · rintro ⟨code, e, create, encoded, length, -⟩
    obtain rfl := Option.some.inj (created.symm.trans create)
    by_contra long
    have few := few_digits long positive alphabet.small encoded
    have size := Nat.div_add_mod (b.length * 8 + n - 1) n
    have rest := Nat.mod_lt (b.length * 8 + n - 1) positive
    rw [length, Nat.mul_comm] at few
    simp only at few
    omega
  · intro short
    obtain ⟨e, encoded, length, -, decoded⟩ := roundTrips_of_short alphabet short
    exact ⟨⟨base, n⟩, e, created, encoded, length, decoded⟩

section Base64

open Source.Crypto.Base64

theorem alphabet_BYTES : Alphabet BYTES 6 := ⟨by decide, by decide, by decide, by decide⟩

theorem alphabet_URLBYTES : Alphabet URLBYTES 6 := ⟨by decide, by decide, by decide, by decide⟩

theorem strip_padded {fuel k : Nat} (plain : equalSign ∉ e) (enough : k ≤ fuel) :
    strip fuel (e ++ List.replicate k equalSign) = e := by
  induction k generalizing fuel with
  | zero =>
    rw [List.replicate_zero, List.append_nil]
    cases fuel with
    | zero => rfl
    | succ fuel =>
      rw [strip, if_neg]
      exact fun last => plain (List.mem_of_getLast? last)
  | succ k ih =>
    cases fuel with
    | zero => omega
    | succ fuel =>
      rw [List.replicate_succ', ← List.append_assoc, strip, List.getLast?_concat, if_pos rfl,
        List.dropLast_concat]
      exact ih (by omega)

theorem pad_eq (b str : List Byte) :
    pad b str = str ++ List.replicate ((3 - b.length % 3) % 3) equalSign := by
  have rest := Nat.mod_lt b.length (by omega : 3 > 0)
  unfold pad
  rcases (by omega : b.length % 3 = 0 ∨ b.length % 3 = 1 ∨ b.length % 3 = 2) with
    zero | one | two
  · rw [zero]
    exact (List.append_nil str).symm
  · rw [one]
    rfl
  · rw [two]
    rfl

/-- What is encoded, with its padding. -/
theorem encodeWith_eq (created : create base = some code) (complement : Bool) :
    encodeWith base b complement =
      (code.encodeBytes b).map fun str => if complement then pad b str else str := by
  unfold encodeWith
  rw [created, Option.map_eq_bind]
  exact Option.bind_some ..

theorem decodeWith_eq (created : create base = some code) (complement : Bool) :
    decodeWith base e complement =
      code.decodeBytes (if complement then strip e.length e else e) := by
  unfold decodeWith
  rw [created]
  exact Option.bind_some ..

/-- The decoder sees the digits without the padding. -/
theorem strip_pad (plain : equalSign ∉ e) (complement : Bool) (b : List Byte) :
    (if complement then strip (if complement then pad b e else e).length
        (if complement then pad b e else e)
      else if complement then pad b e else e) = e := by
  cases complement with
  | false => rfl
  | true =>
    rw [if_pos rfl, if_pos rfl, pad_eq]
    apply strip_padded plain
    rw [List.length_append, List.length_replicate]
    exact Nat.le_add_left _ _

/-- A digit is a byte of the alphabet. -/
theorem mem_of_pump {digit : Nat → Option (BitVec 32)} {inBits outBits count : Nat}
    {acc acc' : Accumulator} {bytes : List Byte}
    (pumped : pump digit inBits outBits code.get count acc = some (bytes, acc')) :
    ∀ x ∈ bytes, x ∈ code.base := by
  induction count generalizing acc bytes with
  | zero =>
    obtain ⟨rfl, -⟩ := Prod.mk.inj (Option.some.inj pumped)
    exact fun x member => absurd member List.not_mem_nil
  | succ count ih =>
    obtain ⟨full, -, pumped⟩ := Option.bind_eq_some_iff.mp pumped
    obtain ⟨byte, got, pumped⟩ := Option.bind_eq_some_iff.mp pumped
    obtain ⟨⟨others, last⟩, behind, pumped⟩ := Option.bind_eq_some_iff.mp pumped
    obtain ⟨rfl, rfl⟩ := Prod.mk.inj (Option.some.inj pumped)
    intro x member
    rcases List.mem_cons.mp member with rfl | member
    · exact List.mem_of_getElem? got
    · exact ih behind x member

theorem mem_of_encoded (encoded : code.encodeBytes b = some e) : ∀ x ∈ e, x ∈ code.base := by
  unfold encodeBytes at encoded
  obtain ⟨out, -, encoded⟩ := Option.bind_eq_some_iff.mp encoded
  obtain ⟨⟨digits, acc⟩, loop, encoded⟩ := Option.bind_eq_some_iff.mp encoded
  dsimp only at encoded
  split at encoded
  · obtain ⟨last, got, encoded⟩ := Option.bind_eq_some_iff.mp encoded
    obtain rfl := Option.some.inj encoded
    intro x member
    rcases List.mem_append.mp member with front | behind
    · exact mem_of_pump loop x front
    · rw [List.mem_singleton.mp behind]
      exact List.mem_of_getElem? got
  · obtain rfl := Option.some.inj encoded
    exact mem_of_pump loop

/-- `Base64` on one of its alphabets. -/
theorem trips_iff (alphabet : Alphabet base 6) (plain : equalSign ∉ base) (b : List Byte)
    (complement : Bool) :
    (∃ e, encodeWith base b complement = some e ∧ decodeWith base e complement = some b) ↔
      Short b := by
  have created := create_alphabet alphabet
  constructor
  · rintro ⟨padded, encoded, decoded⟩
    rw [encodeWith_eq created complement] at encoded
    obtain ⟨e, own, rfl⟩ := Option.map_eq_some_iff.mp encoded
    rw [decodeWith_eq created, strip_pad fun there => plain (mem_of_encoded own _ there)] at decoded
    by_contra long
    have few := few_digits long alphabet.positive alphabet.small own
    have bound := length_decodeBytes decoded
    omega
  · intro short
    obtain ⟨e, own, -, inside, decoded⟩ := roundTrips_of_short alphabet short
    refine ⟨if complement then pad b e else e, ?_, ?_⟩
    · rw [encodeWith_eq created complement, own, Option.map_some]
    · rw [decodeWith_eq created, strip_pad fun there => plain (inside _ there)]
      exact decoded

theorem base64Trips_iff (b : List Byte) : Base64Trips b ↔ Short b := by
  have standard (complement : Bool) := trips_iff alphabet_BYTES (by decide) b complement
  have url (complement : Bool) := trips_iff alphabet_URLBYTES (by decide) b complement
  constructor
  · intro trips
    exact (standard true).mp (trips true).1
  · intro short complement
    exact ⟨(standard complement).mpr short, (url complement).mpr short⟩

end Base64

/-- Decoding undoes encoding exactly for the bytes of which the number of bits is an `Int`. -/
theorem decoding_undoes_encoding_iff (alphabet : Alphabet base n) (b : List Byte) :
    (RoundTrips base n b ↔ Short b) ∧ (Base64Trips b ↔ Short b) :=
  ⟨roundTrips_iff alphabet b, base64Trips_iff b⟩

/-- The digits of an octal code. -/
def octal : List Byte := Source.Crypto.Base64.bytes "01234567"

theorem octal_trips : Alphabet octal 3 ∧ RoundTrips octal 3 [0x4d, 0x61] ∧
    Base64Trips [0x4d, 0x61] := by
  have alphabet : Alphabet octal 3 := ⟨by decide, by decide, by decide, by decide⟩
  have short : Short [0x4d, 0x61] := by
    unfold Short
    decide
  have trips := decoding_undoes_encoding_iff alphabet [0x4d, 0x61]
  exact ⟨alphabet, trips.1.mpr short, trips.2.mpr short⟩

/-- So many bytes that their bits are no `Int`. -/
theorem long_is_lost : ¬ RoundTrips octal 3 (List.replicate 0x10000000 0) ∧
    ¬ Base64Trips (List.replicate 0x10000000 0) := by
  have alphabet : Alphabet octal 3 := ⟨by decide, by decide, by decide, by decide⟩
  have long : ¬ Short (List.replicate 0x10000000 0) := by
    unfold Short
    rw [List.length_replicate]
    omega
  exact ⟨fun trips => long ((roundTrips_iff alphabet _).mp trips),
    fun trips => long ((base64Trips_iff _).mp trips)⟩

end Haxe.Guarantees.BaseCode

/-!
## Escapes in strings

What `s_escape` writes is read back by `unescape`. Octal and hexadecimal escapes of three and two
digits are for ASCII, and no escape is for a surrogate.
-/

namespace Haxe.Guarantees.Escapes

open Source.Escapes

/-- `unescape` accepts the strings in which every backslash begins an escape, but for one at the
end, and puts the bytes of the escapes in their places; `s_escape` writes such strings. -/
theorem unescape_reads (t r : List Nat) :
    (unescape t = .ok r ↔ Denotes t r) ∧ unescape (sEscape true t) = .ok t :=
  ⟨unescape_iff, unescape_iff.mpr (sEscape_denotes t)⟩

end Haxe.Guarantees.Escapes

/-!
## The UTF-8 library

The functions of `UTF8` on the encoding of code points, with the forms of five and six bytes.
-/

namespace Haxe.Guarantees.UTF8

open Source.UTF8

/-- The library sees the code points. A position is the offset of a code point, and a move beyond
the end raises. -/
structure Walks (points : List CodePoint) : Prop where
  iterated : iter (encode points) = .ok points
  counted : length (encode points) = .ok (points.length : Int)
  looked : ∀ (c : Nat) (inside : c < points.length),
    look (encode points) (offset points c) =
      .ok ((points[c].val : Int), ((addUchar points[c]).length : Int))
  moved : ∀ c d : Nat, c ≤ points.length → d ≤ points.length →
    move (encode points) (offset points c) ((d : Int) - c) = .ok (offset points d)
  stopped : ∀ c n : Nat, c ≤ points.length → points.length < c + n →
    move (encode points) (offset points c) n = .error .invalidArgument

theorem library_walks (points : List CodePoint) : Walks points where
  iterated := iter_encode points
  counted := length_encode points
  looked _ inside := look_offset inside
  moved c d inside inside' := by
    unfold move
    rcases Nat.le_total c d with forward | backward
    · obtain ⟨n, rfl⟩ := Nat.exists_eq_add_of_le forward
      have count : ((c + n : Nat) : Int) - c = n := by omega
      rw [count, if_pos (Int.natCast_nonneg n), Int.toNat_natCast]
      exact nextTimes_offset inside'
    · obtain ⟨n, rfl⟩ := Nat.exists_eq_add_of_le backward
      have count : (d : Int) - ((d + n : Nat) : Int) = -n := by omega
      rw [count]
      split
      · obtain rfl : n = 0 := by omega
        rfl
      · rw [Int.neg_neg, Int.toNat_natCast]
        exact prevTimes_offset inside
  stopped c n inside beyond := by
    unfold move
    rw [if_pos (Int.natCast_nonneg n), Int.toNat_natCast]
    exact nextTimes_beyond inside beyond

end Haxe.Guarantees.UTF8
