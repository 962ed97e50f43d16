import Haxe.Theory.BitStrings
import Haxe.Theory.Fuel

/-!
# Reading compressed data

`haxe.zip.InflateImpl`: the bits of the input, the symbols that a Huffman decoder takes from them,
and the code lengths of a dynamic block. No more than 16 bits are asked for at once, so that `bits`
stays small.
-/

namespace Haxe.Source.Inflate

open Theory.BitStrings Theory.FueledLoops

/-- What is thrown, `nothing` where a table has no entry. -/
inductive Thrown where
  | eof
  | invalidData
  | invalidHuffman
  | assertion
  | nothing
  deriving DecidableEq

inductive Huffman where
  | found (i : Int)
  | needBit (left right : Huffman)
  | needBits (n : Nat) (table : List Huffman)

/-- The bits that are buffered, and the bytes behind them. -/
structure Bits where
  bits : Nat
  nbits : Nat
  input : List UInt8
  deriving DecidableEq

/-- The loop of `getBits`. -/
def fill (n : Nat) : List UInt8 → Nat → Nat → Except Thrown Bits
  | [], bits, nbits => if nbits < n then .error .eof else .ok ⟨bits, nbits, []⟩
  | c :: rest, bits, nbits =>
    if nbits < n then fill n rest (bits ||| (c.toNat <<< nbits)) (nbits + 8)
    else .ok ⟨bits, nbits, c :: rest⟩

def getBits (n : Nat) (this : Bits) : Except Thrown (Nat × Bits) :=
  match fill n this.input this.bits this.nbits with
  | .ok r => .ok (r.bits &&& ((1 <<< n) - 1), ⟨r.bits >>> n, r.nbits - n, r.input⟩)
  | .error e => .error e

def getBit (this : Bits) : Except Thrown (Bool × Bits) :=
  if this.nbits = 0 then
    match this.input with
    | [] => .error .eof
    | c :: rest => .ok (c.toNat &&& 1 == 1, ⟨c.toNat >>> 1, 7, rest⟩)
  else .ok (this.bits &&& 1 == 1, ⟨this.bits >>> 1, this.nbits - 1, this.input⟩)

mutual

@[grind =] def applyHuffman : Huffman → Bits → Except Thrown (Int × Bits)
  | .found n, this => .ok (n, this)
  | .needBit a b, this =>
    match getBit this with
    | .ok (bit, this) => if bit then applyHuffman b this else applyHuffman a this
    | .error e => .error e
  | .needBits n tbl, this =>
    match getBits n this with
    | .ok (i, this) => applyAt tbl i this
    | .error e => .error e

/-- `applyHuffman(tbl[i])` -/
def applyAt : List Huffman → Nat → Bits → Except Thrown (Int × Bits)
  | [], _, _ => .error .nothing
  | h :: _, 0, this => applyHuffman h this
  | _ :: rest, i + 1, this => applyAt rest i this

end

/-! ## The stream -/

namespace Bits

/-- The bits that are still to come. -/
def stream (this : Bits) : List Bool :=
  lowFirst this.nbits this.bits ++ this.input.flatMap fun c => lowFirst 8 c.toNat

/-- There are no other bits. -/
def Small (this : Bits) : Prop := this.bits < 2 ^ this.nbits

variable {this : Bits}

theorem fill_stream {n : Nat} {input : List UInt8} {bits nbits : Nat} (small : bits < 2 ^ nbits)
    (enough : n ≤ (Bits.stream ⟨bits, nbits, input⟩).length) :
    ∃ r, fill n input bits nbits = .ok r ∧ r.Small ∧ n ≤ r.nbits ∧
      r.stream = Bits.stream ⟨bits, nbits, input⟩ := by
  induction input generalizing bits nbits with
  | nil =>
    have buffered : n ≤ nbits := by
      unfold stream at enough
      rw [List.flatMap_nil, List.append_nil, length_lowFirst] at enough
      exact enough
    exact ⟨_, if_neg (Nat.not_lt.mpr buffered), small, buffered, rfl⟩
  | cons c rest ih =>
    by_cases few : nbits < n
    · have packed : bits ||| (c.toNat <<< nbits) = bits + c.toNat * 2 ^ nbits := by
        rw [Nat.or_comm, ← Nat.shiftLeft_add_eq_or_of_lt small, Nat.shiftLeft_eq, Nat.add_comm]
      have byte : c.toNat < 2 ^ 8 := c.toNat_lt
      have small' : bits ||| (c.toNat <<< nbits) < 2 ^ (nbits + 8) := by
        rw [packed, Nat.pow_add, Nat.mul_comm (2 ^ nbits)]
        calc bits + c.toNat * 2 ^ nbits < 2 ^ nbits + c.toNat * 2 ^ nbits :=
              Nat.add_lt_add_right small _
          _ = (c.toNat + 1) * 2 ^ nbits := by rw [Nat.succ_mul, Nat.add_comm]
          _ ≤ 2 ^ 8 * 2 ^ nbits := Nat.mul_le_mul_right _ byte
      have same : stream ⟨bits ||| (c.toNat <<< nbits), nbits + 8, rest⟩ =
          stream ⟨bits, nbits, c :: rest⟩ := by
        unfold stream
        dsimp only
        rw [packed, lowFirst_append small, List.append_assoc, List.flatMap_cons]
      obtain ⟨r, run, small'', long, stream⟩ := ih small' (by rw [same]; exact enough)
      exact ⟨r, (if_pos few).trans run, small'', long, stream.trans same⟩
    · exact ⟨_, if_neg few, small, Nat.not_lt.mp few, rfl⟩

/-- `getBits` takes the lowest bit first. -/
theorem getBits_stream {bs rest : List Bool} (small : this.Small)
    (begins : this.stream = bs ++ rest) :
    ∃ next, getBits bs.length this = .ok (ofLowFirst bs, next) ∧ next.Small ∧
      next.stream = rest := by
  obtain ⟨r, run, small', long, stream⟩ :=
    @fill_stream bs.length this.input this.bits this.nbits small (by
      change _ ≤ this.stream.length
      rw [begins, List.length_append]
      exact Nat.le_add_right _ _)
  obtain ⟨more, eq⟩ := Nat.exists_eq_add_of_le long
  have parts : lowFirst bs.length r.bits ++ (lowFirst more (r.bits / 2 ^ bs.length) ++
      r.input.flatMap fun c => lowFirst 8 c.toNat) = bs ++ rest := by
    rw [← List.append_assoc, ← lowFirst_add, ← eq]
    exact stream.trans begins
  obtain ⟨first, second⟩ := List.append_inj parts (length_lowFirst _ _)
  refine ⟨⟨r.bits >>> bs.length, r.nbits - bs.length, r.input⟩, ?_, ?_, ?_⟩
  · unfold getBits
    rw [run]
    dsimp only
    rw [Nat.one_shiftLeft, Nat.and_two_pow_sub_one_eq_mod, ← ofLowFirst_lowFirst, first]
  · unfold Small at small' ⊢
    rw [eq, Nat.pow_add] at small'
    rw [Nat.shiftRight_eq_div_pow, eq, Nat.add_sub_cancel_left]
    exact Nat.div_lt_of_lt_mul small'
  · rw [← second, Nat.shiftRight_eq_div_pow, eq, Nat.add_sub_cancel_left]
    rfl

theorem getBit_stream {bit : Bool} {rest : List Bool} (small : this.Small)
    (begins : this.stream = bit :: rest) :
    ∃ next, getBit this = .ok (bit, next) ∧ next.Small ∧ next.stream = rest := by
  have odd : ∀ n : Nat, (n &&& 1 == 1) = (n % 2 == 1) := fun n => by rw [Nat.and_one_is_mod]
  obtain ⟨bits, nbits, input⟩ := this
  cases nbits with
  | zero =>
    cases input with
    | nil => exact absurd begins.symm (List.cons_ne_nil _ _)
    | cons c more =>
      obtain ⟨first, behind⟩ := List.cons.inj begins
      have byte : c.toNat < 2 ^ 8 := c.toNat_lt
      refine ⟨⟨c.toNat >>> 1, 7, more⟩, ?_, ?_, ?_⟩
      · unfold getBit
        dsimp only
        rw [if_pos rfl, odd, ← first]
      · unfold Small
        rw [Nat.shiftRight_eq_div_pow]
        dsimp only
        omega
      · rw [← behind]
        rfl
  | succ k =>
    obtain ⟨first, behind⟩ := List.cons.inj begins
    unfold Small at small
    dsimp only at small
    rw [Nat.pow_succ] at small
    refine ⟨⟨bits >>> 1, k, input⟩, ?_, ?_, ?_⟩
    · unfold getBit
      dsimp only
      rw [if_neg (Nat.succ_ne_zero k), odd, ← first]
      rfl
    · unfold Small
      rw [Nat.shiftRight_eq_div_pow]
      dsimp only
      omega
    · rw [← behind]
      rfl

end Bits

/-! ## Code lengths -/

/-- The variables of `inflateLengths`. -/
structure Lengths where
  i : Nat
  prev : Nat
  a : List Nat
  bits : Bits

/-- The loop that writes `prev` to the elements from `i` on. -/
def writeRun (v : Nat) : Nat → Nat → List Nat → List Nat
  | 0, _, a => a
  | k + 1, i, a => writeRun v k (i + 1) (a.set i v)

/-- The elements that 17 and 18 stand for are skipped. -/
def skipRun (max base width : Nat) (this : Lengths) :
    Next Lengths (Except Thrown (List Nat × Bits)) :=
  match getBits width this.bits with
  | .ok (extra, bits) =>
    let i := this.i + (base + extra)
    if i > max then .done (.error .invalidData) else .again { this with i, bits }
  | .error e => .done (.error e)

def inflateLengthsStep (huffman : Huffman) (max : Nat) (this : Lengths) :
    Next Lengths (Except Thrown (List Nat × Bits)) :=
  if this.i < max then
    match applyHuffman huffman this.bits with
    | .ok (n, bits) =>
      if 0 ≤ n ∧ n ≤ 15 then
        .again ⟨this.i + 1, n.toNat, this.a.set this.i n.toNat, bits⟩
      else if n = 16 then
        match getBits 2 bits with
        | .ok (extra, bits) =>
          let last := this.i + (3 + extra)
          if last > max then .done (.error .invalidData)
          else .again ⟨last, this.prev, writeRun this.prev (3 + extra) this.i this.a, bits⟩
        | .error e => .done (.error e)
      else if n = 17 then skipRun max 3 3 { this with bits }
      else if n = 18 then skipRun max 11 7 { this with bits }
      else .done (.error .invalidData)
    | .error e => .done (.error e)
  else .done (.ok (this.a, this.bits))

/-- `inflateLengths`, which takes one element at least in each turn. -/
def inflateLengths (huffman : Huffman) (a : List Nat) (max : Nat) (bits : Bits) :
    Option (Except Thrown (List Nat × Bits)) :=
  loop (inflateLengthsStep huffman max) (max + 1) ⟨0, 0, a, bits⟩

/-- A symbol of the code length alphabet, with its extra bits. -/
inductive Item where
  | length (n : Fin 16)
  | copy (extra : Nat)
  | zeros (extra : Nat)
  | manyZeros (extra : Nat)
  deriving DecidableEq

namespace Item

def symbol : Item → Int
  | length n => n
  | copy _ => 16
  | zeros _ => 17
  | manyZeros _ => 18

/-- How many code lengths the symbol stands for. -/
@[grind =] def count : Item → Nat
  | length _ => 1
  | copy extra => 3 + extra
  | zeros extra => 3 + extra
  | manyZeros extra => 11 + extra

/-- The extra bits behind the symbol. -/
def Takes (before behind : Bits) : Item → Prop
  | length _ => behind = before
  | copy extra => getBits 2 before = .ok (extra, behind)
  | zeros extra => getBits 3 before = .ok (extra, behind)
  | manyZeros extra => getBits 7 before = .ok (extra, behind)

/-- The code lengths, with those before: 16 copies the last one, 17 and 18 repeat 0. -/
def expand (before : List Nat) : Item → Option (List Nat)
  | length n => some (before ++ [n.val])
  | copy extra => before.getLast?.map fun last => before ++ List.replicate (3 + extra) last
  | zeros extra => some (before ++ List.replicate (3 + extra) 0)
  | manyZeros extra => some (before ++ List.replicate (11 + extra) 0)

/-- What the code leaves in the array, by the length that it remembers. -/
def written (prev : Nat) : Item → List Nat
  | length n => [n.val]
  | copy extra => List.replicate (3 + extra) prev
  | zeros extra => List.replicate (3 + extra) 0
  | manyZeros extra => List.replicate (11 + extra) 0

/-- The length that is remembered. -/
def remembered (prev : Nat) : Item → Nat
  | length n => n.val
  | _ => prev

end Item

/-- The code lengths of some symbols; there are none if the first one is 16. -/
def expand (before : List Nat) : List Item → Option (List Nat)
  | [] => some before
  | item :: rest => (item.expand before).bind fun lengths => expand lengths rest

def written (prev : Nat) : List Item → List Nat
  | [] => []
  | item :: rest => item.written prev ++ written (item.remembered prev) rest

@[grind =] def count : List Item → Nat
  | [] => 0
  | item :: rest => item.count + count rest

/-- The decoder takes some symbols with their extra bits from the input. -/
def Supplies (huffman : Huffman) : Bits → List Item → Bits → Prop
  | bits, [], last => last = bits
  | bits, item :: rest, last => ∃ before behind,
    applyHuffman huffman bits = .ok (item.symbol, before) ∧ item.Takes before behind ∧
      Supplies huffman behind rest last

section Lengths

variable {huffman : Huffman} {max : Nat}

theorem Item.length_written (item : Item) (prev : Nat) :
    (item.written prev).length = item.count := by
  cases item with
  | length n => rfl
  | copy extra => exact List.length_replicate
  | zeros extra => exact List.length_replicate
  | manyZeros extra => exact List.length_replicate

theorem Item.count_pos (item : Item) : 0 < item.count := by
  cases item with
  | length n => exact Nat.zero_lt_one
  | copy extra => exact Nat.lt_of_lt_of_le (by decide) (Nat.le_add_right 3 extra)
  | zeros extra => exact Nat.lt_of_lt_of_le (by decide) (Nat.le_add_right 3 extra)
  | manyZeros extra => exact Nat.lt_of_lt_of_le (by decide) (Nat.le_add_right 11 extra)

theorem length_le_count (items : List Item) : items.length ≤ count items := by
  induction items with
  | nil => exact Nat.le_refl 0
  | cons item rest ih =>
    have := item.count_pos
    rw [List.length_cons, count]
    omega

theorem writeRun_append (v k : Nat) (front : List Nat) (rest : List Nat) :
    writeRun v k front.length (front ++ (List.replicate k 0 ++ rest)) =
      front ++ (List.replicate k v ++ rest) := by
  induction k generalizing front with
  | zero => rfl
  | succ k ih =>
    have first : (front ++ (List.replicate (k + 1) 0 ++ rest)).set front.length v =
        (front ++ [v]) ++ (List.replicate k 0 ++ rest) := by
      rw [List.set_append_right _ _ (Nat.le_refl _), Nat.sub_self, List.append_assoc]
      rfl
    have place : front.length + 1 = (front ++ [v]).length := by
      rw [List.length_append]
      rfl
    rw [writeRun, first, place, ih, List.append_assoc]
    rfl

/-- A state of the loop: the code lengths so far, and zeros behind them. -/
def reached (max : Nat) (front : List Nat) (prev : Nat) (bits : Bits) : Lengths :=
  ⟨front.length, prev, front ++ List.replicate (max - front.length) 0, bits⟩

/-- Zeros that are skipped. -/
theorem reached_skip {front : List Nat} {k : Nat} (fits : front.length + k ≤ max) (prev : Nat)
    (bits : Bits) : { reached max front prev bits with i := front.length + k } =
      reached max (front ++ List.replicate k 0) prev bits := by
  obtain ⟨more, rfl⟩ := Nat.exists_eq_add_of_le fits
  have left : front.length + k + more - front.length = k + more := by omega
  unfold reached
  rw [List.length_append, List.length_replicate, Nat.add_sub_cancel_left, left,
    ← List.replicate_append_replicate, List.append_assoc]

/-- Zeros that are written over. -/
theorem reached_run {front : List Nat} {k : Nat} (fits : front.length + k ≤ max) (v prev : Nat)
    (bits : Bits) :
    ⟨front.length + k, prev, writeRun v k front.length (reached max front prev bits).a, bits⟩ =
      reached max (front ++ List.replicate k v) prev bits := by
  obtain ⟨more, rfl⟩ := Nat.exists_eq_add_of_le fits
  have left : front.length + k + more - front.length = k + more := by omega
  unfold reached
  rw [List.length_append, List.length_replicate, Nat.add_sub_cancel_left, left,
    ← List.replicate_append_replicate, writeRun_append, List.append_assoc]

theorem skipRun_item {front : List Nat} {prev base width extra : Nat} {before behind : Bits}
    (takes : getBits width before = .ok (extra, behind)) :
    skipRun max base width (reached max front prev before) =
      if front.length + (base + extra) > max then .done (.error .invalidData)
      else .again (reached max (front ++ List.replicate (base + extra) 0) prev behind) := by
  have read : getBits width (reached max front prev before).bits = .ok (extra, behind) := takes
  unfold skipRun
  rw [read]
  by_cases beyond : front.length + (base + extra) > max
  · rw [if_pos beyond]
    exact if_pos beyond
  · rw [if_neg beyond, ← reached_skip (Nat.not_lt.mp beyond)]
    exact if_neg beyond

theorem inflateLengthsStep_item {front : List Nat} {bits before behind : Bits} {item : Item}
    (prev : Nat) (left : front.length < max)
    (symbol : applyHuffman huffman bits = .ok (item.symbol, before))
    (takes : item.Takes before behind) :
    inflateLengthsStep huffman max (reached max front prev bits) =
      if front.length + item.count > max then .done (.error .invalidData)
      else .again (reached max (front ++ item.written prev) (item.remembered prev) behind) := by
  have inside : (reached max front prev bits).i < max := left
  have read : applyHuffman huffman (reached max front prev bits).bits =
    .ok (item.symbol, before) := symbol
  unfold inflateLengthsStep
  rw [if_pos inside, read]
  dsimp only
  cases item with
  | length n =>
    have small : (0 : Int) ≤ n.val ∧ (n.val : Int) ≤ 15 := by
      have := n.isLt
      omega
    have same : behind = before := takes
    have one := @reached_run max front 1 left n.val n.val before
    have fits : ¬ front.length + (Item.length n).count > max := Nat.not_lt.mpr left
    rw [if_neg fits, same]
    exact (if_pos small).trans (congrArg Next.again one)
  | copy extra =>
    have taken : getBits 2 before = .ok (extra, behind) := takes
    have sixteen : (Item.copy extra).symbol = 16 := rfl
    rw [sixteen, if_neg (by decide), if_pos rfl, taken]
    by_cases beyond : front.length + (3 + extra) > max
    · exact (if_pos beyond).trans (if_pos beyond).symm
    · have run := reached_run (Nat.not_lt.mp beyond) prev prev behind
      exact (if_neg beyond).trans ((congrArg Next.again run).trans (if_neg beyond).symm)
  | zeros extra =>
    have seventeen : (Item.zeros extra).symbol = 17 := rfl
    rw [seventeen, if_neg (by decide), if_neg (by decide), if_pos rfl]
    exact skipRun_item takes
  | manyZeros extra =>
    have eighteen : (Item.manyZeros extra).symbol = 18 := rfl
    rw [eighteen, if_neg (by decide), if_neg (by decide), if_neg (by decide), if_pos rfl]
    exact skipRun_item takes

/-- The symbols that stand for as many code lengths as are left. -/
theorem inflateLengths_loop {items : List Item} {front : List Nat} {prev fuel : Nat}
    {bits last : Bits} (supplies : Supplies huffman bits items last)
    (exact_ : front.length + count items = max) (enough : items.length < fuel) :
    loop (inflateLengthsStep huffman max) fuel (reached max front prev bits) =
      some (.ok (front ++ written prev items, last)) := by
  induction items generalizing front prev fuel bits with
  | nil =>
    obtain ⟨fuel, rfl⟩ := Nat.exists_eq_succ_of_ne_zero (Nat.ne_zero_of_lt enough)
    have same : last = bits := supplies
    have full : front.length = max := exact_
    have step : inflateLengthsStep huffman max (reached max front prev bits) =
        .done (.ok (front ++ List.replicate (max - front.length) 0, bits)) :=
      if_neg (Nat.not_lt.mpr (Nat.le_of_eq full.symm))
    rw [loop_done step, same, full, Nat.sub_self]
    rfl
  | cons item rest ih =>
    obtain ⟨fuel, rfl⟩ := Nat.exists_eq_succ_of_ne_zero (Nat.ne_zero_of_lt enough)
    obtain ⟨before, behind, symbol, takes, more⟩ := supplies
    rw [count] at exact_
    have positive : 0 < item.count := item.count_pos
    have step := inflateLengthsStep_item prev (by omega : front.length < max)
      symbol takes
    rw [if_neg (by omega)] at step
    rw [loop_again step, ih more _ (Nat.lt_of_succ_lt_succ enough), written, List.append_assoc]
    rw [List.length_append, item.length_written]
    omega

/-- A symbol that stands for more code lengths than are left. -/
theorem inflateLengths_overrun {items after : List Item} {item : Item} {front : List Nat}
    {prev fuel : Nat} {bits last : Bits}
    (supplies : Supplies huffman bits (items ++ item :: after) last)
    (left : front.length + count items < max)
    (beyond : max < front.length + count items + item.count) (enough : items.length < fuel) :
    loop (inflateLengthsStep huffman max) fuel (reached max front prev bits) =
      some (.error .invalidData) := by
  induction items generalizing front prev fuel bits with
  | nil =>
    obtain ⟨fuel, rfl⟩ := Nat.exists_eq_succ_of_ne_zero (Nat.ne_zero_of_lt enough)
    obtain ⟨before, behind, symbol, takes, -⟩ := supplies
    have step := inflateLengthsStep_item prev (left : front.length < max) symbol takes
    exact loop_done (step.trans (if_pos beyond)) fuel
  | cons other rest ih =>
    obtain ⟨fuel, rfl⟩ := Nat.exists_eq_succ_of_ne_zero (Nat.ne_zero_of_lt enough)
    obtain ⟨before, behind, symbol, takes, more⟩ := supplies
    rw [count] at left beyond
    have step := inflateLengthsStep_item prev (by omega : front.length < max)
      symbol takes
    have length : (front ++ other.written prev).length = front.length + other.count := by
      rw [List.length_append, other.length_written]
    rw [if_neg (by omega)] at step
    rw [loop_again step]
    exact ih more (by omega) (by omega) (Nat.lt_of_succ_lt_succ enough)

/-! ### What is remembered -/

/-- The last code length that was given by itself, and whether 17 or 18 came behind it. -/
structure Seen where
  last : Nat
  zeros : Bool

def Seen.behind (seen : Seen) : Item → Seen
  | .length n => ⟨n.val, false⟩
  | .copy _ => seen
  | .zeros _ => { seen with zeros := true }
  | .manyZeros _ => { seen with zeros := true }

/-- Where 16 comes behind 17 or 18, the last code length given by itself is 0 or there is none. -/
def Fits (seen : Seen) : List Item → Prop
  | [] => True
  | item :: rest =>
    (∀ extra, item = .copy extra → seen.zeros = true → seen.last = 0) ∧
      Fits (seen.behind item) rest

/-- What is seen of the code lengths so far. -/
def Seen.Of (seen : Seen) (front : List Nat) : Prop :=
  (front = [] ∧ seen.last = 0) ∨
    front.getLast? = some (if seen.zeros then 0 else seen.last)

theorem expand_item {seen : Seen} {front front' : List Nat} {item : Item} (of : seen.Of front)
    (expands : item.expand front = some front') :
    ∃ run, front' = front ++ run ∧ run.length = item.count ∧
      (seen.behind item).Of front' ∧ item.remembered seen.last = (seen.behind item).last ∧
      (item.written seen.last = run ↔
        ∀ extra, item = .copy extra → seen.zeros = true → seen.last = 0) := by
  have more : ∀ k v, (front ++ List.replicate (k + 1) v).getLast? = some v := by
    intro k v
    rw [List.replicate_succ', ← List.append_assoc, List.getLast?_concat]
  cases item with
  | length n =>
    obtain rfl := Option.some.inj expands
    exact ⟨[n.val], rfl, rfl, .inr List.getLast?_concat, rfl, iff_of_true rfl nofun⟩
  | copy extra =>
    obtain ⟨last, found, rfl⟩ := Option.map_eq_some_iff.mp expands
    have value : last = if seen.zeros then 0 else seen.last := by
      rcases of with ⟨rfl, -⟩ | known
      · cases found
      · exact Option.some.inj (found.symm.trans known)
    refine ⟨_, rfl, List.length_replicate, .inr ?_, rfl, ?_⟩
    · rw [Nat.add_comm 3, more, value]
      rfl
    · have same : (List.replicate (3 + extra) seen.last = List.replicate (3 + extra) last) ↔
          seen.last = last := by
        have nonempty : ¬ 3 + extra = 0 := by omega
        exact List.replicate_right_inj nonempty
      refine same.trans ?_
      rw [value]
      constructor
      · intro eq _ _ zeros
        rwa [zeros] at eq
      · intro zero
        split
        case isTrue zeros => exact zero extra rfl zeros
        case isFalse => rfl
  | zeros extra =>
    obtain rfl := Option.some.inj expands
    refine ⟨_, rfl, List.length_replicate, .inr ?_, rfl, iff_of_true rfl nofun⟩
    rw [Nat.add_comm 3, more]
    rfl
  | manyZeros extra =>
    obtain rfl := Option.some.inj expands
    refine ⟨_, rfl, List.length_replicate, .inr ?_, rfl, iff_of_true rfl nofun⟩
    rw [Nat.add_comm 11, more]
    rfl

/-- The code lengths are those that are written if what is remembered fits everywhere. -/
theorem expand_written {items : List Item} {seen : Seen} {front out : List Nat}
    (of : seen.Of front) (expands : expand front items = some out) :
    ∃ runs, out = front ++ runs ∧ runs.length = count items ∧
      (written seen.last items = runs ↔ Fits seen items) := by
  induction items generalizing seen front with
  | nil =>
    obtain rfl := Option.some.inj expands
    exact ⟨[], (List.append_nil _).symm, rfl, iff_of_true rfl trivial⟩
  | cons item rest ih =>
    obtain ⟨front', first, others⟩ := Option.bind_eq_some_iff.mp expands
    obtain ⟨run, rfl, length, of', remembered, run_iff⟩ := expand_item of first
    obtain ⟨runs, rfl, length', runs_iff⟩ := ih of' others
    refine ⟨run ++ runs, List.append_assoc _ _ _, ?_, ?_⟩
    · rw [List.length_append, length, length', count]
    · rw [written, remembered, Fits, ← run_iff, ← runs_iff]
      constructor
      · intro same
        exact List.append_inj same (by rw [item.length_written, length])
      · rintro ⟨same, same'⟩
        rw [same, same']

end Lengths

end Haxe.Source.Inflate
