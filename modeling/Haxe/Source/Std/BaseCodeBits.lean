import Mathlib.Algebra.Ring.Nat
import Haxe.Source.Std.BaseCode

/-!
# The bits of a code

No bit is lost in the loops of `BaseCode`: what was read is what was written, followed by the bits
that wait in the accumulator.
-/

namespace Haxe.Source.Crypto

open Theory.BitStrings BaseCode

/-- No bit is set from a place on. -/
def Small (k : Nat) (x : BitVec 32) : Prop := ∀ i, k ≤ i → x.getLsbD i = false

theorem small_iff {k : Nat} {x : BitVec 32} : Small k x ↔ x.toNat < 2 ^ k := by
  constructor
  · intro small
    apply Nat.lt_pow_two_of_testBit
    intro i above
    exact small i above
  · intro below i above
    exact Nat.testBit_lt_two_pow (Nat.lt_of_lt_of_le below (Nat.pow_le_pow_right (by omega) above))

/-- The digit goes behind the bits that wait. -/
theorem lowBits_shifted {curbits inBits : Nat} {buf digit : BitVec 32} (small : Small inBits digit)
    (fits : curbits + inBits ≤ 32) :
    lowBits (curbits + inBits) (buf <<< inBits ||| digit) =
      lowBits curbits buf ++ lowBits inBits digit := by
  rw [lowBits_add]
  congr 1
  · apply lowBits_congr
    intro i below
    rw [BitVec.getLsbD_ushiftRight, BitVec.getLsbD_or, BitVec.getLsbD_shiftLeft,
      small (inBits + i) (by omega), Bool.or_false, Nat.add_sub_cancel_left,
      decide_eq_true (by omega : inBits + i < 32), decide_eq_false (by omega : ¬ inBits + i < inBits)]
    rfl
  · apply lowBits_congr
    intro i below
    rw [BitVec.getLsbD_or, BitVec.getLsbD_shiftLeft, decide_eq_true below]
    simp

theorem toNat_mask {n : Nat} (fits : n < 32) : (mask n).toNat = 2 ^ n - 1 := by
  have power : 2 ^ n < 2 ^ 32 := Nat.pow_lt_pow_right (by omega) fits
  have positive := Nat.two_pow_pos n
  have shifted : ((1 : BitVec 32) <<< n).toNat = 2 ^ n := by
    rw [BitVec.toNat_shiftLeft, Nat.shiftLeft_eq]
    show 1 * 2 ^ n % 2 ^ 32 = 2 ^ n
    rw [Nat.one_mul, Nat.mod_eq_of_lt power]
  rw [mask, BitVec.toNat_sub, shifted]
  show (2 ^ 32 - 1 + 2 ^ n) % 2 ^ 32 = 2 ^ n - 1
  omega

theorem getLsbD_mask {n : Nat} (fits : n < 32) (i : Nat) :
    (mask n).getLsbD i = decide (i < n) := by
  rw [BitVec.getLsbD, toNat_mask fits, Nat.testBit_two_pow_sub_one]

theorem small_masked {n : Nat} (fits : n < 32) (x : BitVec 32) : Small n (x &&& mask n) := by
  intro i above
  rw [BitVec.getLsbD_and, getLsbD_mask fits, decide_eq_false (by omega), Bool.and_false]

theorem lowBits_masked {n : Nat} (fits : n < 32) (x : BitVec 32) :
    lowBits n (x &&& mask n) = lowBits n x := by
  apply lowBits_congr
  intro i below
  rw [BitVec.getLsbD_and, getLsbD_mask fits, decide_eq_true below, Bool.and_true]

/-- The bits that are written are the first ones of those that wait. -/
theorem lowBits_taken {curbits outBits : Nat} (fits : curbits + outBits < 32) (buf : BitVec 32) :
    lowBits outBits (buf.sshiftRight curbits &&& mask outBits) ++ lowBits curbits buf =
      lowBits (outBits + curbits) buf := by
  rw [lowBits_add, lowBits_masked (by omega)]
  congr 1
  apply lowBits_congr
  intro i below
  rw [BitVec.getLsbD_sshiftRight, BitVec.getLsbD_ushiftRight,
    decide_eq_false (by omega : ¬ 32 ≤ i), if_pos (by omega : curbits + i < 32)]
  rfl

/-- The last digit is filled up with zeros. -/
theorem lowBits_padded {curbits nbits : Nat} (few : curbits ≤ nbits) (fits : nbits < 32)
    (buf : BitVec 32) :
    lowBits nbits (buf <<< (nbits - curbits) &&& mask nbits) =
      lowBits curbits buf ++ List.replicate (nbits - curbits) false := by
  have split_ : nbits = curbits + (nbits - curbits) := by omega
  have shifted := @lowBits_shifted curbits (nbits - curbits) buf 0#32
    (fun i _ => BitVec.getLsbD_zero) (by omega)
  rw [lowBits_masked fits]
  rw [BitVec.or_zero, lowBits_zero, ← split_] at shifted
  exact shifted

section Loops

variable {digits : List (BitVec 32)} {inBits outBits : Nat}

/-- What was read is some bits, and those that wait. -/
structure Waits (digits : List (BitVec 32)) (inBits : Nat) (written : List Bool)
    (acc : Accumulator) : Prop where
  inside : acc.pin ≤ digits.length
  bits : bitsOf inBits (digits.take acc.pin) = written ++ lowBits acc.curbits acc.buf

theorem waits_start (digits : List (BitVec 32)) (inBits : Nat) :
    Waits digits inBits [] ⟨0, 0, 0⟩ :=
  ⟨Nat.zero_le _, rfl⟩

theorem Waits.count {written : List Bool} {acc : Accumulator}
    (waits : Waits digits inBits written acc) :
    inBits * acc.pin = written.length + acc.curbits := by
  have lengths := congrArg List.length waits.bits
  rw [length_bitsOf, List.length_take, Nat.min_eq_left waits.inside, List.length_append,
    length_lowBits] at lengths
  exact lengths

variable (small : ∀ d ∈ digits, Small inBits d) (reads : 0 < inBits ∧ inBits ≤ 8)
  (writes : 0 < outBits ∧ outBits ≤ 8)
include small reads writes

theorem fill_waits {fuel : Nat} {written : List Bool} {acc : Accumulator}
    (enough : outBits ≤ acc.curbits + fuel) (waits : Waits digits inBits written acc)
    (few : acc.curbits < outBits + inBits)
    (left : written.length + outBits ≤ inBits * digits.length) :
    ∃ acc', fill (digits[·]?) inBits outBits fuel acc = some acc' ∧
      Waits digits inBits written acc' ∧ outBits ≤ acc'.curbits ∧
      acc'.curbits < outBits + inBits := by
  induction fuel generalizing acc with
  | zero =>
    refine ⟨acc, ?_, waits, by omega, few⟩
    rw [fill, if_neg (by omega)]
  | succ fuel ih =>
    by_cases more : acc.curbits < outBits
    · have count := waits.count
      have below : acc.pin < digits.length := by
        by_contra beyond
        have all : acc.pin = digits.length := by
          have := waits.inside
          omega
        rw [all] at count
        omega
      have next : Waits digits inBits written
          ⟨acc.buf <<< inBits ||| digits[acc.pin], acc.curbits + inBits, acc.pin + 1⟩ := by
        refine ⟨below, ?_⟩
        show bitsOf inBits (digits.take (acc.pin + 1)) = _
        rw [List.take_add_one, List.getElem?_eq_getElem below, bitsOf_append, waits.bits,
          lowBits_shifted (small _ (List.getElem_mem below)) (by omega), List.append_assoc]
        congr 2
        exact List.append_nil _
      rw [fill, if_pos more, List.getElem?_eq_getElem below]
      exact ih (by simp only; omega) next (by simp only; omega)
    · refine ⟨acc, ?_, waits, by omega, few⟩
      rw [fill, if_neg more]

theorem pump_waits {emit : BitVec 32 → Option Byte} (emits : ∀ x, Small outBits x → (emit x).isSome)
    {count : Nat} {written : List Bool} {acc : Accumulator}
    (waits : Waits digits inBits written acc) (few : acc.curbits < inBits)
    (left : written.length + outBits * count ≤ inBits * digits.length) :
    ∃ values bytes acc', pump (digits[·]?) inBits outBits emit count acc = some (bytes, acc') ∧
      values.mapM emit = some bytes ∧ (∀ x ∈ values, Small outBits x) ∧ values.length = count ∧
      Waits digits inBits (written ++ bitsOf outBits values) acc' ∧ acc'.curbits < inBits := by
  induction count generalizing written acc with
  | zero =>
    refine ⟨[], [], acc, rfl, rfl, fun x member => absurd member List.not_mem_nil, rfl, ?_, few⟩
    rw [show bitsOf outBits [] = [] from rfl, List.append_nil]
    exact waits
  | succ count ih =>
    rw [Nat.mul_succ] at left
    obtain ⟨full, filled, waits', enough, few'⟩ := fill_waits small reads writes
      (Nat.le_add_left outBits acc.curbits) waits (by omega) (by omega)
    have value_small := small_masked (by omega : outBits < 32)
      (full.buf.sshiftRight (full.curbits - outBits))
    obtain ⟨byte, emitted⟩ := Option.isSome_iff_exists.mp (emits _ value_small)
    have next : Waits digits inBits
        (written ++ lowBits outBits (full.buf.sshiftRight (full.curbits - outBits) &&& mask outBits))
        { full with curbits := full.curbits - outBits } := by
      refine ⟨waits'.inside, ?_⟩
      have all : outBits + (full.curbits - outBits) = full.curbits := by omega
      show bitsOf inBits (digits.take full.pin) = _
      rw [waits'.bits, List.append_assoc, lowBits_taken (by omega), all]
    obtain ⟨values, bytes, acc', pumped, mapped, small', length, waits'', few''⟩ := ih next
      (by simp only; omega) (by rw [List.length_append, length_lowBits]; omega)
    refine ⟨(full.buf.sshiftRight (full.curbits - outBits) &&& mask outBits) :: values,
      byte :: bytes, acc', ?_, ?_, ?_, ?_, ?_, few''⟩
    · rw [pump, filled]
      simp only [bind, Option.bind, emitted, pumped]
      rfl
    · rw [List.mapM_cons, emitted, mapped]
      rfl
    · intro x member
      rcases List.mem_cons.mp member with rfl | member
      · exact value_small
      · exact small' x member
    · rw [List.length_cons, length]
    · rw [bitsOf_cons, ← List.append_assoc]
      exact waits''

end Loops

/-- The bytes as they are read. -/
def words (b : List Byte) : List (BitVec 32) := b.map (·.setWidth 32)

theorem getByte_eq (b : List Byte) : getByte b = fun pin => (words b)[pin]? := by
  funext pin
  rw [getByte, words, List.getElem?_map]

theorem words_small (b : List Byte) : ∀ d ∈ words b, Small 8 d := by
  intro d member
  obtain ⟨byte, -, rfl⟩ := List.mem_map.mp member
  intro i above
  rw [BitVec.getLsbD_setWidth, BitVec.getLsbD_of_ge byte i above, Bool.and_false]

theorem bitsOf_words (b : List Byte) : bitsOf 8 (words b) = bitsOf 8 b := by
  induction b with
  | nil => rfl
  | cons byte b ih =>
    have same : lowBits 8 (byte.setWidth 32) = lowBits 8 byte := by
      apply lowBits_congr
      intro i below
      rw [BitVec.getLsbD_setWidth, decide_eq_true (by omega), Bool.true_and]
    rw [bitsOf_cons, ← ih, ← same]
    rfl

/-- An alphabet of `2^n` distinct bytes. -/
structure Alphabet (base : List Byte) (n : Nat) : Prop where
  positive : 0 < n
  small : n ≤ 8
  length : base.length = 2 ^ n
  distinct : base.Nodup

theorem countBits_power {n : Nat} {fuel nbits : Nat} (below : nbits ≤ n) (enough : n ≤ nbits + fuel) :
    BaseCode.countBits (2 ^ n) fuel nbits = n := by
  induction fuel generalizing nbits with
  | zero =>
    rw [BaseCode.countBits]
    omega
  | succ fuel ih =>
    rw [BaseCode.countBits, Nat.shiftLeft_eq, Nat.one_mul]
    by_cases top : nbits = n
    · rw [top, if_neg (Nat.lt_irrefl _)]
    · rw [if_pos (Nat.pow_lt_pow_right (by omega) (by omega))]
      exact ih (by omega) (by omega)

section Codes

variable {base : List Byte} {n : Nat} (alphabet : Alphabet base n)
include alphabet

theorem create_alphabet : BaseCode.create base = some ⟨base, n⟩ := by
  have counted : BaseCode.countBits base.length base.length 1 = n := by
    rw [alphabet.length]
    exact countBits_power alphabet.positive (Nat.le_add_left_of_le (Nat.le_of_lt Nat.lt_two_pow_self))
  unfold BaseCode.create
  dsimp only
  rw [counted, if_neg]
  rw [alphabet.length, Nat.shiftLeft_eq, Nat.one_mul]
  have small := alphabet.small
  omega

theorem get_isSome {x : BitVec 32} (small : Small n x) :
    ((BaseCode.mk base n).get x).isSome := by
  have below := small_iff.mp small
  rw [← alphabet.length] at below
  rw [BaseCode.get, List.getElem?_eq_getElem below]
  rfl

end Codes

theorem wrap_of_short {x : Nat} (short : x < 0x80000000) : wrap x = x := by
  apply Int.bmod_eq_of_le <;> omega

/-- How many digits some bits take. -/
theorem digits_of_rest {bits n : Nat} (positive : 0 < n) :
    (bits + n - 1) / n = bits / n + if bits % n = 0 then 0 else 1 := by
  have divided := Nat.div_add_mod bits n
  have rest := Nat.mod_lt bits positive
  apply Nat.div_eq_of_lt_le
  · rw [Nat.add_mul, Nat.mul_comm]
    split <;> omega
  · rw [Nat.succ_mul, Nat.add_mul, Nat.mul_comm (bits / n)]
    split <;> omega

/-- The size that `encodeBytes` computes, where it does not wrap. -/
theorem sizes_of_short {length n : Nat} (short : length * 8 < 0x80000000) :
    (wrap (length * 8)).tdiv n = (length * 8 / n : Nat) ∧
      (wrap (length * 8)).tmod n = (length * 8 % n : Nat) := by
  have kept : wrap (length * 8) = (length * 8 : Nat) := by
    have kept := wrap_of_short short
    rw [Int.natCast_mul] at kept
    exact kept
  rw [kept]
  exact ⟨(Int.ofNat_tdiv _ _).symm, (Int.ofNat_tmod _ _).symm⟩

/-- Every bit of the bytes is written, and less zeros than a digit has bits. -/
theorem encodeBytes_bits {base : List Byte} {n : Nat} (alphabet : Alphabet base n) {b : List Byte}
    (short : b.length * 8 < 0x80000000) :
    ∃ values e, (BaseCode.mk base n).encodeBytes b = some e ∧
      values.mapM (BaseCode.mk base n).get = some e ∧ (∀ x ∈ values, Small n x) ∧
      values.length = (b.length * 8 + n - 1) / n ∧
      bitsOf n values =
        bitsOf 8 b ++ List.replicate (n * values.length - 8 * b.length) false := by
  have bounds := alphabet.small
  have positive := alphabet.positive
  have listed : (words b).length = b.length := List.length_map ..
  have size : ([] : List Bool).length + n * (b.length * 8 / n) ≤ 8 * (words b).length := by
    rw [listed, List.length_nil, Nat.zero_add, Nat.mul_comm 8]
    exact Nat.mul_div_le _ _
  obtain ⟨values, bytes, acc, pumped, mapped, small, count, waits, few⟩ :=
    pump_waits (words_small b) (by omega) ⟨positive, bounds⟩
      (fun x small => get_isSome alphabet small) (waits_start (words b) 8) (by simp only; omega) size
  have read := waits.count
  rw [List.nil_append, length_bitsOf, count] at read
  have inside := waits.inside
  have divided := Nat.div_add_mod (b.length * 8) n
  have rest := Nat.mod_lt (b.length * 8) positive
  have all : acc.pin = (words b).length := by omega
  have left : acc.curbits = b.length * 8 % n := by omega
  have bits : bitsOf 8 b = bitsOf n values ++ lowBits acc.curbits acc.buf := by
    have read := waits.bits
    rw [all, List.take_length, bitsOf_words, List.nil_append] at read
    exact read
  obtain ⟨quotient, remainder⟩ := @sizes_of_short b.length n short
  unfold encodeBytes
  dsimp only
  rw [quotient, remainder, getByte_eq]
  clear quotient remainder short
  by_cases whole : b.length * 8 % n = 0
  · refine ⟨values, bytes, ?_, mapped, small, ?_, ?_⟩
    · rw [whole, Int.ofNat_zero, if_pos rfl, Int.add_zero, alloc, if_neg (by omega),
        Int.toNat_natCast]
      simp only [bind, Option.bind, pumped]
      rw [if_neg (by omega)]
      rfl
    · rw [count, digits_of_rest positive, if_pos whole, Nat.add_zero]
    · have none_left : n * values.length - 8 * b.length = 0 := by
        rw [count]
        omega
      rw [none_left, List.replicate_zero, List.append_nil, bits, left, whole, lowBits,
        List.append_nil]
  · have value_small := small_masked (by omega : n < 32) (acc.buf <<< (n - acc.curbits))
    obtain ⟨last, got⟩ := Option.isSome_iff_exists.mp (get_isSome alphabet value_small)
    refine ⟨values ++ [acc.buf <<< (n - acc.curbits) &&& mask n], bytes ++ [last], ?_, ?_, ?_, ?_,
      ?_⟩
    · rw [if_neg (by omega), alloc, if_neg (by omega), Int.toNat_natCast]
      simp only [bind, Option.bind, pumped]
      rw [if_pos (by omega), got]
      rfl
    · rw [List.mapM_append, mapped, List.mapM_cons, got]
      rfl
    · intro x member
      rcases List.mem_append.mp member with old | new
      · exact small x old
      · rw [List.mem_singleton.mp new]
        exact value_small
    · rw [List.length_append, count, digits_of_rest positive, if_neg whole]
      rfl
    · have zeros : n * (values ++ [acc.buf <<< (n - acc.curbits) &&& mask n]).length -
          8 * b.length = n - acc.curbits := by
        rw [List.length_append, count, List.length_singleton, Nat.mul_succ]
        omega
      rw [zeros, bitsOf_append, bitsOf_cons, lowBits_padded (by omega) (by omega), bits]
      rw [show bitsOf n ([] : List (BitVec 32)) = [] from rfl, List.append_nil, List.append_assoc]

section Table

variable {entries : List (Byte × Nat)} {tbl : Byte → Int} {byte : Byte}

/-- `tbl[byte] = i` -/
def enter (tbl : Byte → Int) (entry : Byte × Nat) : Byte → Int := fun b =>
  if b = entry.1 then entry.2 else tbl b

theorem enter_missing (missing : byte ∉ entries.map Prod.fst) :
    entries.foldl enter tbl byte = tbl byte := by
  induction entries generalizing tbl with
  | nil => rfl
  | cons entry entries ih =>
    rw [List.map_cons, List.mem_cons, not_or] at missing
    rw [List.foldl_cons, ih missing.2, enter, if_neg missing.1]

theorem enter_listed {i : Nat} (listed : (byte, i) ∈ entries)
    (distinct : (entries.map Prod.fst).Nodup) : entries.foldl enter tbl byte = i := by
  induction entries generalizing tbl with
  | nil => cases listed
  | cons entry entries ih =>
    obtain ⟨fresh, others⟩ := List.nodup_cons.mp distinct
    rcases List.mem_cons.mp listed with rfl | behind
    · rw [List.foldl_cons, enter_missing fresh, enter, if_pos rfl]
    · exact ih behind others

theorem initTable_get {base : List Byte} {i : Nat} (distinct : base.Nodup)
    (found : base[i]? = some byte) : initTable base byte = i := by
  have listed : (byte, i) ∈ base.zipIdx := List.mem_zipIdx_iff_getElem?.mpr found
  have keys : (base.zipIdx.map Prod.fst).Nodup := by
    rw [List.zipIdx_map_fst]
    exact distinct
  exact enter_listed listed keys

end Table

theorem getElem?_mapM {α β : Type} {f : α → Option β} {as : List α} {bs : List β}
    (mapped : as.mapM f = some bs) (i : Nat) : bs[i]? = as[i]?.bind f := by
  induction as generalizing bs i with
  | nil =>
    rw [List.mapM_nil] at mapped
    obtain rfl := Option.some.inj mapped
    rfl
  | cons a as ih =>
    rw [List.mapM_cons] at mapped
    obtain ⟨b, first, mapped⟩ := Option.bind_eq_some_iff.mp mapped
    obtain ⟨others, behind, mapped⟩ := Option.bind_eq_some_iff.mp mapped
    obtain rfl := Option.some.inj mapped
    cases i with
    | zero => exact first.symm
    | succ i => exact ih behind i

theorem length_mapM {α β : Type} {f : α → Option β} {as : List α} {bs : List β}
    (mapped : as.mapM f = some bs) : bs.length = as.length := by
  induction as generalizing bs with
  | nil =>
    rw [List.mapM_nil] at mapped
    obtain rfl := Option.some.inj mapped
    rfl
  | cons a as ih =>
    rw [List.mapM_cons] at mapped
    obtain ⟨b, first, mapped⟩ := Option.bind_eq_some_iff.mp mapped
    obtain ⟨others, behind, mapped⟩ := Option.bind_eq_some_iff.mp mapped
    obtain rfl := Option.some.inj mapped
    exact congrArg Nat.succ (ih behind)

/-- The table gives the digits back. -/
theorem getDigit_eq {base : List Byte} {n : Nat} (alphabet : Alphabet base n)
    {values : List (BitVec 32)} {e : List Byte} (small : ∀ x ∈ values, Small n x)
    (mapped : values.mapM (BaseCode.mk base n).get = some e) :
    getDigit (initTable base) e = fun pin => values[pin]? := by
  funext pin
  unfold getDigit
  rw [getElem?_mapM mapped pin]
  cases there : values[pin]? with
  | none => rfl
  | some x =>
    obtain ⟨byte, got⟩ := Option.isSome_iff_exists.mp
      (get_isSome alphabet (small x (List.mem_of_getElem? there)))
    have index := initTable_get alphabet.distinct got
    simp only [Option.bind_some, got]
    show (if initTable base byte = -1 then none else some (BitVec.ofInt 32 (initTable base byte))) =
      some x
    rw [index, if_neg (by omega), BitVec.ofInt_natCast, BitVec.ofNat_toNat, BitVec.setWidth_eq]

theorem bitsOf_bytes {values : List (BitVec 32)} {bytes : List Byte}
    (mapped : values.mapM (fun i => some (i.setWidth 8)) = some bytes) :
    bitsOf 8 bytes = bitsOf 8 values := by
  induction values generalizing bytes with
  | nil =>
    rw [List.mapM_nil] at mapped
    obtain rfl := Option.some.inj mapped
    rfl
  | cons x values ih =>
    rw [List.mapM_cons] at mapped
    obtain ⟨b, first, mapped⟩ := Option.bind_eq_some_iff.mp mapped
    obtain ⟨others, behind, mapped⟩ := Option.bind_eq_some_iff.mp mapped
    obtain rfl := Option.some.inj mapped
    obtain rfl := Option.some.inj first
    have same : lowBits 8 (x.setWidth 8) = lowBits 8 x := by
      apply lowBits_congr
      intro i below
      rw [BitVec.getLsbD_setWidth, decide_eq_true below, Bool.true_and]
    rw [bitsOf_cons, bitsOf_cons, ih behind, same]

/-- The bytes are the whole bytes of the bits of the digits. -/
theorem decodeBytes_bits {base : List Byte} {n : Nat} (alphabet : Alphabet base n) {b e : List Byte}
    {values : List (BitVec 32)} (small : ∀ x ∈ values, Small n x)
    (mapped : values.mapM (BaseCode.mk base n).get = some e) (short : e.length * n < 0x80000000)
    (size : e.length * n / 8 = b.length) {zeros : Nat}
    (bits : bitsOf n values = bitsOf 8 b ++ List.replicate zeros false) :
    (BaseCode.mk base n).decodeBytes e = some b := by
  have bounds := alphabet.small
  have positive := alphabet.positive
  have lengths := length_mapM mapped
  have left : ([] : List Bool).length + 8 * b.length ≤ n * values.length := by
    rw [List.length_nil, Nat.zero_add, ← lengths, ← size, Nat.mul_comm n]
    exact Nat.mul_div_le _ _
  obtain ⟨words, bytes, acc, pumped, made, -, count, waits, -⟩ :=
    @pump_waits values n 8 small ⟨positive, bounds⟩ (by omega) (fun i => some (i.setWidth 8))
      (fun _ _ => rfl) b.length _ _ (waits_start values n) positive left
  have whole : bitsOf 8 words = bitsOf 8 b := by
    have all : bitsOf n (values.take acc.pin) ++ bitsOf n (values.drop acc.pin) =
        bitsOf n values := by
      rw [← bitsOf_append, List.take_append_drop]
    rw [waits.bits, bits, List.nil_append, List.append_assoc] at all
    exact (List.append_inj all (by rw [length_bitsOf, length_bitsOf, count])).1
  have equal : bytes = b := by
    apply bitsOf_injective
    · rw [bitsOf_bytes made, whole]
    · rw [length_mapM made, count]
  have computed : wrap (e.length * n) >>> (3 : Nat) = (b.length : Int) := by
    have kept := wrap_of_short short
    rw [Int.natCast_mul] at kept
    rw [kept, ← Int.natCast_mul, Int.shiftRight_eq_div_pow, ← size]
    rfl
  unfold decodeBytes
  dsimp only
  rw [computed, getDigit_eq alphabet small mapped, alloc, if_neg (by omega), Int.toNat_natCast]
  simp only [bind, Option.bind, pumped]
  rw [equal]
  rfl

end Haxe.Source.Crypto
