import Haxe.Source.Std.BytesInput
import Haxe.Source.Std.StreamWriting
import Haxe.Source.Std.Huffman

/-!
# Streams deliver every byte once

The loops over `readBytes` and `writeBytes` end and transfer all bytes in order, with two
exceptions. The default `readBytes` catches the `Eof` of `readByte` and returns no bytes instead of
throwing it on, which `readAll` and `writeInput` take for a blocked source. And `writeFullBytes`
does not look whether the sink accepts anything.

A `BytesInput` stays in its part until its position is assigned, which is only harmless in a part
that begins with the first byte.
-/

namespace Haxe.Guarantees.Streams

open Haxe.Source.Io

theorem streams_deliver_iff (i : Input) (o : Output) (s : List Byte)
    (pos len nbytes bufsize : Nat) :
    (0 < bufsize → ∃ fuel r, i.readAll fuel bufsize = some r ∧
      ((∃ i', r = .ok (i', i.remaining)) ↔ i.byByte = false)) ∧
    (pos + len ≤ s.length →
      ∃ fuel r, i.readFullBytes fuel s pos len = some r ∧ i.Delivered s pos len r) ∧
    (∃ fuel r, i.read fuel nbytes = some r ∧
      if nbytes ≤ i.remaining.length then
        ∃ i', r = .ok (i', i.remaining.take nbytes) ∧ i'.remaining = i.remaining.drop nbytes
      else ∃ e, r = .error e) ∧
    (∃ fuel r, o.write fuel s = some r ∧ o.Passed s r) ∧
    (pos + len ≤ s.length →
      ((∃ fuel r, o.writeFullBytes fuel s pos len = some r ∧
          o.Passed ((s.drop pos).take len) r) ↔ ∃ n, len ≤ o.willing o.calls n)) ∧
    (0 < bufsize →
      ((∃ fuel r, o.writeInput fuel i bufsize = some r ∧ o.Passed i.remaining r) ↔
        i.byByte = false ∨ o.RefusesEarly bufsize i.remaining.length)) := by
  refine ⟨fun some_ => ?_, i.readFullBytes_delivers, i.read_delivers nbytes, o.write_passes s,
    o.writeFullBytes_passes_iff, o.writeInput_passes_iff i⟩
  obtain ⟨fuel, r, run, ends⟩ := i.readAll_ends some_
  refine ⟨fuel, r, run, ?_⟩
  unfold Input.AllRead at ends
  cases kind : i.byByte with
  | false =>
    rw [kind] at ends
    obtain ⟨i', rest, -⟩ := ends
    exact iff_of_true ⟨i', rest⟩ rfl
  | true =>
    rw [kind] at ends
    refine iff_of_false ?_ (by decide)
    rintro ⟨i', returned⟩
    cases ends.symm.trans returned

/-- A source that overrides `readBytes` and delivers one byte at each call. -/
theorem chunked_source_is_read :
    ∃ fuel r, (Input.ofReadBytes [1, 2, 3] (fun _ => 0) 0).readAll fuel 2 = some r ∧
      ∃ i', r = .ok (i', [1, 2, 3]) := by
  obtain ⟨fuel, r, run, all⟩ :=
    (streams_deliver_iff (.ofReadBytes [1, 2, 3] (fun _ => 0) 0) ⟨[], fun _ => 0, 0⟩ [] 0 0 0 2).1
      (by decide)
  exact ⟨fuel, r, run, all.mpr rfl⟩

/-- A source that overrides `readByte` is taken for a blocked one at its end, and a sink that
accepts nothing is tried again and again. -/
theorem streams_are_blocked :
    ((Input.ofReadByte [1, 2, 3]).readAll 3 2).map (fun r => r.toOption.isSome) = some false ∧
    ((Output.mk [] (fun _ => 5) 0).writeInput 5 (.ofReadByte [1, 2, 3]) 2).map
        (fun r => (r.1.written, r.2)) = some ([1, 2, 3], .error (.error .Blocked)) ∧
    ¬ (∀ (i : Input) (bufsize : Nat), 0 < bufsize → ∃ fuel i',
      i.readAll fuel bufsize = some (.ok (i', i.remaining))) ∧
    ¬ ∀ (o : Output) (s : List Byte), ∃ fuel r, o.writeFullBytes fuel s 0 s.length = some r := by
  refine ⟨by decide, by decide, fun claim => ?_, fun claim => ?_⟩
  · obtain ⟨fuel, i', run⟩ := claim (.ofReadByte []) 1 (by decide)
    obtain ⟨fuel', r, run', ends⟩ := @Input.readAll_ends (.ofReadByte []) 1 (by decide)
    obtain rfl := Haxe.Theory.FueledLoops.loop_unique run' run
    cases ends
  · obtain ⟨fuel, r, run⟩ := claim ⟨[], fun _ => 0, 0⟩ [7]
    have start := @Output.Forwarded.start ⟨[], fun _ => 0, 0⟩ [7] 0 1 (by decide)
    obtain ⟨n, enough⟩ := Output.willing_of_loop ⟨0, start⟩ run
    rw [Output.willing, Finset.sum_const_zero] at enough
    cases enough

/-- The last two of four bytes. -/
def lastTwo : BytesInput := ⟨[1, 2, 3, 4], 2, 2, 2, by decide, by decide⟩

end Haxe.Guarantees.Streams

/-!
## Inflating

The code lengths of a dynamic block are expanded as RFC 1951 says, except that 16 behind 17 or 18
repeats the code length before the zeros. A complete code is decoded, while one code word among
several symbols is refused.
-/

namespace Haxe.Guarantees.Inflate

open Theory.FueledLoops Theory.CanonicalCodes Source.Inflate

/-- A symbol stands for more code lengths than are left. -/
def Overruns (max : Nat) (items : List Item) : Prop :=
  ∃ before item after, items = before ++ item :: after ∧ count before < max ∧
    max < count before + item.count

/-- Symbols that stand for `max` code lengths leave these in the array exactly if what is
remembered fits, and symbols that stand for more are refused. -/
theorem inflateLengths_iff {huffman : Huffman} {bits last : Bits} {items : List Item}
    (supplies : Supplies huffman bits items last) (max : Nat) :
    (∀ lengths, expand [] items = some lengths → lengths.length = max →
      (inflateLengths huffman (List.replicate max 0) max bits = some (.ok (lengths, last)) ↔
        Fits ⟨0, false⟩ items)) ∧
      (Overruns max items →
        inflateLengths huffman (List.replicate max 0) max bits = some (.error .invalidData)) := by
  constructor
  · intro lengths expands length
    have start : Seen.Of ⟨0, false⟩ [] := .inl ⟨rfl, rfl⟩
    obtain ⟨runs, rfl, long, iff_⟩ := expand_written start expands
    have short := length_le_count items
    have run := @inflateLengths_loop huffman max items [] 0 (max + 1) bits last supplies
      (by rw [List.length_nil]; omega) (by omega)
    have reads : inflateLengths huffman (List.replicate max 0) max bits =
        some (.ok (written 0 items, last)) := run
    rw [reads, ← iff_, Option.some.injEq, Except.ok.injEq, Prod.mk.injEq]
    exact and_iff_left rfl
  · rintro ⟨before, item, after, rfl, left, beyond⟩
    have short := length_le_count before
    exact @inflateLengths_overrun huffman max before after item [] 0 (max + 1) bits last supplies
      (by rw [List.length_nil]; omega) (by rw [List.length_nil]; omega) (by omega)

/-- A decoder of 5 as 00, 17 as 01 and 16 as 1. -/
def threeSymbols : Huffman := .needBit (.needBit (.found 5) (.found 17)) (.found 16)

theorem zeros_then_length :
    inflateLengths threeSymbols (List.replicate 4 0) 4 ⟨2, 7, []⟩ =
        some (.ok ([0, 0, 0, 5], ⟨0, 0, []⟩)) ↔
      Fits ⟨0, false⟩ [.zeros 0, .length 5] :=
  (@inflateLengths_iff threeSymbols ⟨2, 7, []⟩ ⟨0, 0, []⟩ [.zeros 0, .length 5]
    ⟨_, _, rfl, rfl, _, _, rfl, rfl, rfl⟩ 4).1 [0, 0, 0, 5] rfl rfl

/-- 5, three zeros, and three times the last code length. -/
theorem copy_behind_zeros :
    Supplies threeSymbols ⟨136, 8, [0]⟩ [.length 5, .zeros 0, .copy 0] ⟨0, 6, []⟩ ∧
      expand [] [.length 5, .zeros 0, .copy 0] = some [5, 0, 0, 0, 0, 0, 0] ∧
      inflateLengths threeSymbols (List.replicate 7 0) 7 ⟨136, 8, [0]⟩ =
        some (.ok ([5, 0, 0, 0, 5, 5, 5], ⟨0, 6, []⟩)) ∧
      ¬ ∀ (huffman : Huffman) (bits last : Bits) (items : List Item) (lengths : List Nat),
        Supplies huffman bits items last → expand [] items = some lengths →
          inflateLengths huffman (List.replicate lengths.length 0) lengths.length bits =
            some (.ok (lengths, last)) := by
  have supplies : Supplies threeSymbols ⟨136, 8, [0]⟩ [.length 5, .zeros 0, .copy 0] ⟨0, 6, []⟩ :=
    ⟨_, _, rfl, rfl, _, _, rfl, rfl, _, _, rfl, rfl, rfl⟩
  have run : inflateLengths threeSymbols (List.replicate 7 0) 7 ⟨136, 8, [0]⟩ =
      some (.ok ([5, 0, 0, 0, 5, 5, 5], ⟨0, 6, []⟩)) := rfl
  refine ⟨supplies, rfl, run, fun claim => ?_⟩
  have same := claim threeSymbols _ _ _ [5, 0, 0, 0, 0, 0, 0] supplies rfl
  exact absurd (run.symm.trans same) (by decide)

/-- The code lengths that RFC 1951 allows: a complete code, or one word of one bit. -/
structure Legal (lengths : List Nat) (maxbits : Nat) : Prop where
  small : ∀ l ∈ lengths, l < maxbits ∧ l ≤ 15
  short : maxbits ≤ 32
  code : Complete lengths (maxbits - 1) ∨ Single lengths

theorem complete_several {lengths : List Nat} {k : Nat} (complete : Complete lengths k) :
    lengths.length ≠ 1 := by
  intro one
  obtain ⟨l, rfl⟩ := List.length_eq_one_iff.mp one
  have whole : share k l + 0 = 2 ^ k := complete
  have positive := Nat.two_pow_pos k
  unfold share at whole
  split at whole
  case isTrue within =>
    have smaller := Nat.pow_lt_pow_right (by decide : 1 < 2) (by omega : k - l < k)
    omega
  case isFalse => omega

theorem one_symbol_decoder {lengths : List Nat} (one : lengths.length = 1)
    (single : Single lengths) : Decoder lengths (.needBit (.found 0) (.found 0)) := by
  obtain ⟨x, rfl⟩ := List.length_eq_one_iff.mp one
  intro s l length positive
  obtain ⟨inside, eq⟩ := List.getElem?_eq_some_iff.mp length
  obtain rfl : s = 0 := by
    rw [List.length_singleton] at inside
    omega
  have short := single.2 x List.mem_cons_self
  obtain rfl : l = 1 := by
    have same : x = l := eq
    omega
  obtain rfl : x = 1 := eq
  exact decodes_left (decodes_found 0)

/-- A decoder of every word is made exactly of a complete code and of one symbol. -/
theorem make_decodes_iff {lengths : List Nat} {maxbits : Nat} (legal : Legal lengths maxbits)
    (before after : List Nat) :
    (∃ h, make (before ++ (lengths ++ after)) before.length lengths.length maxbits = .ok h ∧
        Decoder lengths h) ↔
      Complete lengths (maxbits - 1) ∨ lengths.length = 1 := by
  have small : ∀ l ∈ lengths, l < maxbits := fun l member => (legal.small l member).1
  constructor
  · rintro ⟨h, made, -⟩
    rcases legal.code with complete | single
    · exact .inl complete
    · refine .inr (Decidable.not_not.mp fun several => ?_)
      have refused := @make_single before lengths after maxbits small legal.short several single
      exact nomatch made.symm.trans refused
  · rintro (complete | one)
    · exact make_complete small legal.short (complete_several complete) complete
    · have single := legal.code.resolve_left fun complete => complete_several complete one
      exact ⟨_, if_pos one, one_symbol_decoder one single⟩

/-- The code of RFC 1951, 3.2.2. -/
theorem eight_symbols_decoder :
    (∃ h, make [3, 3, 3, 3, 3, 2, 4, 4] 0 8 16 = .ok h ∧ Decoder [3, 3, 3, 3, 3, 2, 4, 4] h) ↔
      Complete [3, 3, 3, 3, 3, 2, 4, 4] 15 ∨ 8 = 1 := by
  have legal : Legal [3, 3, 3, 3, 3, 2, 4, 4] 16 := ⟨by decide, by decide, .inl rfl⟩
  exact make_decodes_iff legal [] []

/-- The second of three symbols is the only one that is used. -/
theorem single_symbol_refused :
    Legal [0, 1, 0] 16 ∧ make [0, 1, 0] 0 3 16 = .error .invalidHuffman ∧
      ¬ ∀ (lengths : List Nat) (maxbits : Nat), Legal lengths maxbits →
        ∃ h, make lengths 0 lengths.length maxbits = .ok h ∧ Decoder lengths h := by
  have legal : Legal [0, 1, 0] 16 := ⟨by decide, by decide, .inr ⟨rfl, by decide⟩⟩
  have refused : make [0, 1, 0] 0 3 16 = .error .invalidHuffman := rfl
  refine ⟨legal, refused, fun claim => ?_⟩
  obtain ⟨h, made, -⟩ := claim [0, 1, 0] 16 legal
  exact nomatch made.symm.trans refused

end Haxe.Guarantees.Inflate
