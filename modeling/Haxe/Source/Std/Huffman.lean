import Mathlib.Logic.Function.Basic
import Haxe.Theory.CanonicalCodes
import Haxe.Source.Std.Inflate

/-!
# Huffman decoders

`haxe.zip.Huffman.HuffTools`: a tree is made from the lengths of the code words, and levels of it
are replaced by tables, whose index has the first bit lowest.
-/

namespace Haxe.Source.Inflate

open Theory.BitStrings Theory.CanonicalCodes

/-- The depth of the highest leaf. -/
@[grind =] def treeDepth : Huffman → Except Thrown Nat
  | .found _ => .ok 0
  | .needBits _ _ => .error .assertion
  | .needBit a b =>
    match treeDepth a, treeDepth b with
    | .ok da, .ok db => .ok (1 + if da < db then da else db)
    | .error e, _ => .error e
    | _, .error e => .error e

/-- `table[p] = treeCompress(t)` -/
@[grind =]
def setEntry (compress : Huffman → Except Thrown Huffman) (table : List Huffman) (p : Nat)
    (t : Huffman) : Except Thrown (List Huffman) :=
  match compress t with
  | .ok h => .ok (table.set p h)
  | .error e => .error e

@[grind =] def treeWalk (compress : Huffman → Except Thrown Huffman) :
    Huffman → Nat → List Huffman → Nat → Nat → Except Thrown (List Huffman)
  | .needBit a b, d + 1, table, p, cd =>
    match treeWalk compress a d table p (cd + 1) with
    | .ok table => treeWalk compress b d table (p ||| (1 <<< cd)) (cd + 1)
    | .error e => .error e
  | t, _, table, p, _ => setEntry compress table p t

/-- The table that replaces `d` levels. -/
@[grind =] def treeTable (compress : Huffman → Except Thrown Huffman) (t : Huffman) (d : Nat) :
    Except Thrown Huffman :=
  match treeWalk compress t d (List.replicate (1 <<< d) (.found (-1))) 0 0 with
  | .ok table => .ok (.needBits d table)
  | .error e => .error e

/-- The fuel exceeds the height of the tree. -/
@[grind =] def treeCompress : Nat → Huffman → Except Thrown Huffman
  | 0, _ => .error .assertion
  | fuel + 1, t =>
    match treeDepth t with
    | .error e => .error e
    | .ok 0 => .ok t
    | .ok 1 =>
      match t with
      | .needBit a b =>
        match treeCompress fuel a, treeCompress fuel b with
        | .ok a, .ok b => .ok (.needBit a b)
        | .error e, _ => .error e
        | _, .error e => .error e
      | _ => .error .assertion
    | .ok d => treeTable (treeCompress fuel) t d

/-- The key of a code word and its length. -/
def key (v len : Nat) : Nat := (v <<< 5) ||| len

/-- There is room for `maxbits + 1 - len` levels, of which the last one is refused. -/
@[grind =] def treeMake (bits : Nat → Option Nat) : Nat → Nat → Nat → Except Thrown Huffman
  | 0, _, _ => .error .invalidHuffman
  | room + 1, v, len =>
    match bits (key v len) with
    | some i => .ok (.found i)
    | none =>
      match treeMake bits room (v <<< 1) (len + 1),
          treeMake bits room ((v <<< 1) ||| 1) (len + 1) with
      | .ok a, .ok b => .ok (.needBit a b)
      | .error e, _ => .error e
      | _, .error e => .error e

/-- The loop over `counts`. -/
@[grind =] def countLengths (maxbits : Nat) : List Nat → List Nat → Except Thrown (List Nat)
  | [], counts => .ok counts
  | p :: rest, counts =>
    if p ≥ maxbits then .error .invalidHuffman
    else countLengths maxbits rest (counts.modify p fun n => n + 1)

/-- The loop over `tmp`, from `i` on. -/
@[grind =] def firstCodes (counts : List Nat) : Nat → Nat → Nat → List Nat → List Nat
  | 0, _, _, tmp => tmp
  | k + 1, i, code, tmp =>
    let code := (code + counts[i]?.getD 0) <<< 1
    firstCodes counts k (i + 1) code (tmp.set i code)

/-- The loop over `bits`. -/
@[grind =] def assign : List Nat → Nat → List Nat → (Nat → Option Nat) → Nat → Option Nat
  | [], _, _, bits => bits
  | l :: rest, i, tmp, bits =>
    if l ≠ 0 then
      let n := tmp[l - 1]?.getD 0
      assign rest (i + 1) (tmp.set (l - 1) (n + 1)) (Function.update bits (key n l) (some i))
    else assign rest (i + 1) tmp bits

/-- `HuffTools.make` -/
def make (lengths : List Nat) (pos nlengths maxbits : Nat) : Except Thrown Huffman :=
  let lengths := (lengths.drop pos).take nlengths
  if nlengths = 1 then .ok (.needBit (.found 0) (.found 0))
  else if maxbits > 32 then .error .invalidHuffman
  else
    match countLengths maxbits lengths (List.replicate maxbits 0) with
    | .error e => .error e
    | .ok counts =>
      let tmp := firstCodes counts (maxbits - 2) 1 0 (List.replicate maxbits 0)
      let bits := assign lengths 0 tmp fun _ => none
      match treeMake bits maxbits 0 1, treeMake bits maxbits 1 1 with
      | .ok a, .ok b => treeCompress (maxbits + 2) (.needBit a b)
      | .error e, _ => .error e
      | _, .error e => .error e

/-! ## Decoding -/

/-- Some bits are taken for a symbol, whatever follows them. -/
def Decodes (h : Huffman) (word : List Bool) (x : Int) : Prop :=
  ∀ (this : Bits) (rest : List Bool), this.Small → this.stream = word ++ rest →
    ∃ next, applyHuffman h this = .ok (x, next) ∧ next.Small ∧ next.stream = rest

section Decodes

variable {h a b : Huffman} {word front : List Bool} {x : Int}

theorem decodes_found (x : Int) : Decodes (.found x) [] x := by
  intro this rest small begins
  exact ⟨this, by rw [applyHuffman], small, begins⟩

theorem decodes_left (decodes : Decodes a word x) : Decodes (.needBit a b) (false :: word) x := by
  intro this rest small begins
  obtain ⟨next, bit, small', behind⟩ := Bits.getBit_stream small begins
  obtain ⟨last, run, ends⟩ := decodes next rest small' behind
  refine ⟨last, ?_, ends⟩
  rw [applyHuffman, bit]
  exact run

theorem decodes_right (decodes : Decodes b word x) : Decodes (.needBit a b) (true :: word) x := by
  intro this rest small begins
  obtain ⟨next, bit, small', behind⟩ := Bits.getBit_stream small begins
  obtain ⟨last, run, ends⟩ := decodes next rest small' behind
  refine ⟨last, ?_, ends⟩
  rw [applyHuffman, bit]
  exact run

theorem applyAt_eq {table : List Huffman} {i : Nat} (entry : table[i]? = some h) (this : Bits) :
    applyAt table i this = applyHuffman h this := by
  induction table generalizing i with
  | nil => cases entry
  | cons first rest ih =>
    cases i with
    | zero =>
      obtain rfl := Option.some.inj entry
      rw [applyAt]
    | succ i =>
      rw [applyAt]
      exact ih entry

/-- A table is indexed by the next bits, the first one lowest. -/
theorem decodes_table {table : List Huffman} (entry : table[ofLowFirst front]? = some h)
    (decodes : Decodes h word x) : Decodes (.needBits front.length table) (front ++ word) x := by
  intro this rest small begins
  rw [List.append_assoc] at begins
  obtain ⟨next, bits, small', behind⟩ := Bits.getBits_stream small begins
  obtain ⟨last, run, ends⟩ := decodes next rest small' behind
  refine ⟨last, ?_, ends⟩
  rw [applyHuffman, bits]
  exact (applyAt_eq entry next).trans run

end Decodes

/-! ## Trees without tables -/

/-- The tree below some bits. -/
@[grind =] def below : Huffman → List Bool → Option Huffman
  | t, [] => some t
  | .needBit a _, false :: bs => below a bs
  | .needBit _ b, true :: bs => below b bs
  | _, _ => none

/-- The symbol of a word. -/
@[grind =] def leafAt (t : Huffman) (word : List Bool) : Option Int :=
  match below t word with
  | some (.found x) => some x
  | _ => none

/-- The number of levels. -/
@[grind =] def height : Huffman → Nat
  | .found _ => 0
  | .needBit a b => 1 + max (height a) (height b)
  | .needBits _ _ => 0

section Trees

variable {t a b : Huffman} {d : Nat} {word front : List Bool} {x : Int}

theorem treeDepth_needBit : treeDepth (.needBit a b) = .ok d ↔
    ∃ da db, treeDepth a = .ok da ∧ treeDepth b = .ok db ∧ d = 1 + min da db := by
  have least : ∀ da db : Nat, (if da < db then da else db) = min da db := by
    intro da db
    split <;> omega
  rw [treeDepth]
  cases treeDepth a with
  | error e => exact iff_of_false nofun (fun ⟨_, _, none_, _⟩ => nomatch none_)
  | ok da =>
    cases treeDepth b with
    | error e => exact iff_of_false nofun (fun ⟨_, _, _, none_, _⟩ => nomatch none_)
    | ok db =>
      dsimp only
      rw [least, Except.ok.injEq]
      constructor
      · rintro rfl
        exact ⟨da, db, rfl, rfl, rfl⟩
      · rintro ⟨da', db', same, same', rfl⟩
        rw [Except.ok.inj same, Except.ok.inj same']

theorem treeDepth_zero (depth : treeDepth t = .ok 0) : ∃ x, t = .found x := by
  cases t with
  | found x => exact ⟨x, rfl⟩
  | needBit a b =>
    obtain ⟨da, db, -, -, none_⟩ := treeDepth_needBit.mp depth
    omega
  | needBits n table => cases depth

theorem treeDepth_succ (depth : treeDepth t = .ok (d + 1)) : ∃ a b da db, t = .needBit a b ∧
    treeDepth a = .ok da ∧ treeDepth b = .ok db ∧ d ≤ da ∧ d ≤ db := by
  cases t with
  | found x => cases depth
  | needBit a b =>
    obtain ⟨da, db, first, second, least⟩ := treeDepth_needBit.mp depth
    exact ⟨a, b, da, db, rfl, first, second, by omega, by omega⟩
  | needBits n table => cases depth

/-- Down to the highest leaf there is a tree below each word, which has no tables either. -/
theorem below_of_depth (depth : treeDepth t = .ok d) (short : word.length ≤ d) :
    ∃ t' d', below t word = some t' ∧ treeDepth t' = .ok d' ∧
      (word ≠ [] → height t' < height t) := by
  induction word generalizing t d with
  | nil => exact ⟨t, d, by rw [below], depth, fun nonempty => absurd rfl nonempty⟩
  | cons bit rest ih =>
    rw [List.length_cons] at short
    obtain ⟨d, rfl⟩ := Nat.exists_eq_succ_of_ne_zero (by omega : d ≠ 0)
    obtain ⟨a, b, da, db, rfl, first, second, low, low'⟩ := treeDepth_succ depth
    have lower : ∀ {t' s : Huffman}, (rest ≠ [] → height t' < height s) →
        below s rest = some t' → height t' ≤ height s := by
      intro t' s strict found
      cases rest with
      | nil =>
        rw [below] at found
        rw [Option.some.inj found]
      | cons bit' rest => exact Nat.le_of_lt (strict (List.cons_ne_nil _ _))
    cases bit with
    | false =>
      obtain ⟨t', d', found, depth', strict⟩ := ih first (by omega)
      refine ⟨t', d', by rw [below]; exact found, depth', fun _ => ?_⟩
      have := lower strict found
      rw [height]
      omega
    | true =>
      obtain ⟨t', d', found, depth', strict⟩ := ih second (by omega)
      refine ⟨t', d', by rw [below]; exact found, depth', fun _ => ?_⟩
      have := lower strict found
      rw [height]
      omega

theorem below_found (x : Int) (bit : Bool) (rest : List Bool) :
    below (.found x) (bit :: rest) = none := by
  cases bit <;> rfl

theorem below_append (t : Huffman) (front word : List Bool) :
    below t (front ++ word) = (below t front).bind fun t' => below t' word := by
  induction front generalizing t with
  | nil => rw [List.nil_append, below, Option.bind_some]
  | cons bit rest ih =>
    cases t with
    | found x => rw [List.cons_append, below_found, below_found, Option.bind_none]
    | needBit a b =>
      cases bit with
      | false => rw [List.cons_append, below, below, ih]
      | true => rw [List.cons_append, below, below, ih]
    | needBits n table => rw [List.cons_append, below, below, Option.bind_none] <;> nofun

/-- No leaf is above the highest one. -/
theorem le_of_leafAt (depth : treeDepth t = .ok d) (leaf : leafAt t word = some x) :
    d ≤ word.length := by
  induction word generalizing t d with
  | nil =>
    unfold leafAt at leaf
    rw [below] at leaf
    cases t with
    | found x => exact Nat.le_of_eq (Except.ok.inj depth).symm
    | needBit a b => cases leaf
    | needBits n table => cases leaf
  | cons bit rest ih =>
    cases d with
    | zero => exact Nat.zero_le _
    | succ d =>
      obtain ⟨a, b, da, db, rfl, first, second, low, low'⟩ := treeDepth_succ depth
      unfold leafAt at leaf
      rw [List.length_cons]
      cases bit with
      | false =>
        rw [below] at leaf
        have := ih first leaf
        omega
      | true =>
        rw [below] at leaf
        have := ih second leaf
        omega

end Trees

/-! ## Tables -/

section Tables

variable {compress : Huffman → Except Thrown Huffman} {t : Huffman} {d : Nat}

/-- The entries of the table for the trees below `d` levels, and those that are kept. -/
structure Filled (compress : Huffman → Except Thrown Huffman) (t : Huffman) (d p cd : Nat)
    (table table' : List Huffman) : Prop where
  length : table'.length = table.length
  entry : ∀ word, word.length = d → ∃ t' h, below t word = some t' ∧ compress t' = .ok h ∧
    table'[p + 2 ^ cd * ofLowFirst word]? = some h
  kept : ∀ q, q % 2 ^ cd ≠ p → table'[q]? = table[q]?

theorem or_shift {p cd : Nat} (low : p < 2 ^ cd) : p ||| (1 <<< cd) = p + 2 ^ cd := by
  rw [Nat.or_comm, ← Nat.shiftLeft_add_eq_or_of_lt low, Nat.one_shiftLeft, Nat.add_comm]

/-- The tables of the two sides are filled one after the other. -/
theorem Filled.needBit {a b : Huffman} {p cd : Nat} {table table' table'' : List Huffman}
    (low : p < 2 ^ cd) (left : Filled compress a d p (cd + 1) table table')
    (right : Filled compress b d (p + 2 ^ cd) (cd + 1) table' table'') :
    Filled compress (.needBit a b) (d + 1) p cd table table'' := by
  have power : 2 ^ (cd + 1) = 2 * 2 ^ cd := Nat.pow_succ'
  refine ⟨right.length.trans left.length, ?_, ?_⟩
  · intro word length
    cases word with
    | nil => cases length
    | cons bit rest =>
      have short : rest.length = d := Nat.succ.inj length
      cases bit with
      | false =>
        obtain ⟨t', h, found, compressed, entry⟩ := left.entry rest short
        have place : p + 2 ^ cd * ofLowFirst (false :: rest) =
            p + 2 ^ (cd + 1) * ofLowFirst rest := by
          rw [ofLowFirst, power, Bool.toNat_false, Nat.zero_add, Nat.mul_left_comm, Nat.mul_assoc]
        refine ⟨t', h, by rw [below]; exact found, compressed, ?_⟩
        rw [place, right.kept, entry]
        rw [Nat.add_mul_mod_self_left, Nat.mod_eq_of_lt (by omega)]
        omega
      | true =>
        obtain ⟨t', h, found, compressed, entry⟩ := right.entry rest short
        have place : p + 2 ^ cd * ofLowFirst (true :: rest) =
            p + 2 ^ cd + 2 ^ (cd + 1) * ofLowFirst rest := by
          rw [ofLowFirst, power, Bool.toNat_true, Nat.mul_add, Nat.mul_one, Nat.mul_left_comm,
            Nat.mul_assoc, Nat.add_assoc]
        refine ⟨t', h, by rw [below]; exact found, compressed, ?_⟩
        rw [place, entry]
  · intro q other
    have half : q % 2 ^ (cd + 1) % 2 ^ cd = q % 2 ^ cd :=
      Nat.mod_mod_of_dvd q (Nat.pow_dvd_pow 2 (Nat.le_succ cd))
    rw [right.kept q, left.kept q]
    · intro same
      rw [same, Nat.mod_eq_of_lt low] at half
      exact other half.symm
    · intro same
      rw [same, Nat.add_mod_right, Nat.mod_eq_of_lt low] at half
      exact other half.symm

theorem treeWalk_leaf {p cd : Nat} {table : List Huffman} (low : p < 2 ^ cd)
    (inside : p < table.length) {h : Huffman} (compressed : compress t = .ok h) :
    ∃ table', treeWalk compress t 0 table p cd = .ok table' ∧
      Filled compress t 0 p cd table table' := by
  have set : setEntry compress table p t = .ok (table.set p h) := by
    unfold setEntry
    rw [compressed]
  have run : treeWalk compress t 0 table p cd = .ok (table.set p h) := by
    cases t with
    | found x => exact set
    | needBit a b => exact set
    | needBits n entries => exact set
  refine ⟨_, run, List.length_set, ?_, ?_⟩
  · intro word length
    rw [List.length_eq_zero_iff.mp length]
    refine ⟨t, h, by rw [below], compressed, ?_⟩
    rw [ofLowFirst, Nat.mul_zero, Nat.add_zero]
    exact List.getElem?_set_self inside
  · intro q other
    refine List.getElem?_set_ne fun same => other ?_
    rw [← same]
    exact Nat.mod_eq_of_lt low

theorem treeWalk_filled {depth p cd : Nat} {table : List Huffman} (deep : treeDepth t = .ok depth)
    (least : d ≤ depth) (low : p < 2 ^ cd) (size : table.length = 2 ^ (cd + d))
    (total : ∀ word t', word.length = d → below t word = some t' → ∃ h, compress t' = .ok h) :
    ∃ table', treeWalk compress t d table p cd = .ok table' ∧
      Filled compress t d p cd table table' := by
  induction d generalizing t depth p cd table with
  | zero =>
    obtain ⟨h, compressed⟩ := total [] t rfl (by rw [below])
    exact treeWalk_leaf low (by rw [size]; exact low) compressed
  | succ d ih =>
    obtain ⟨depth, rfl⟩ := Nat.exists_eq_succ_of_ne_zero (by omega : depth ≠ 0)
    obtain ⟨a, b, da, db, rfl, first, second, leastA, leastB⟩ := treeDepth_succ deep
    have power : 2 ^ (cd + 1) = 2 * 2 ^ cd := Nat.pow_succ'
    have size' : table.length = 2 ^ (cd + 1 + d) := by
      rw [size, Nat.add_right_comm, Nat.add_assoc]
    obtain ⟨table', run, left⟩ := ih first (by omega) (show p < 2 ^ (cd + 1) by omega) size'
      fun word t' length found => total (false :: word) t' (congrArg Nat.succ length)
        (by rw [below]; exact found)
    obtain ⟨table'', run', right⟩ := ih second (by omega)
      (show p + 2 ^ cd < 2 ^ (cd + 1) by omega) (left.length.trans size')
      fun word t' length found => total (true :: word) t' (congrArg Nat.succ length)
        (by rw [below]; exact found)
    refine ⟨table'', ?_, .needBit low left right⟩
    rw [treeWalk, run, or_shift low]
    exact run'

/-- The tables decode the words of the tree, and none is missing. -/
theorem treeCompress_decodes {fuel depth : Nat} (deep : treeDepth t = .ok depth)
    (enough : height t < fuel) : ∃ h, treeCompress fuel t = .ok h ∧
      ∀ word x, leafAt t word = some x → Decodes h word x := by
  induction fuel generalizing t depth with
  | zero => exact absurd enough (Nat.not_lt_zero _)
  | succ fuel ih =>
    unfold treeCompress
    rw [deep]
    match depth with
    | 0 =>
      obtain ⟨i, rfl⟩ := treeDepth_zero deep
      refine ⟨.found i, rfl, fun word x leaf => ?_⟩
      cases word with
      | nil =>
        unfold leafAt at leaf
        rw [below] at leaf
        rw [← Option.some.inj leaf]
        exact decodes_found i
      | cons bit rest =>
        unfold leafAt at leaf
        rw [below_found] at leaf
        cases leaf
    | 1 =>
      obtain ⟨a, b, da, db, rfl, first, second, -, -⟩ := treeDepth_succ deep
      rw [height] at enough
      obtain ⟨ha, compressedA, decodesA⟩ := ih first (by omega)
      obtain ⟨hb, compressedB, decodesB⟩ := ih second (by omega)
      refine ⟨.needBit ha hb, ?_, fun word x leaf => ?_⟩
      · dsimp only
        rw [compressedA, compressedB]
        rfl
      · cases word with
        | nil => cases leaf
        | cons bit rest =>
          unfold leafAt at leaf
          cases bit with
          | false =>
            rw [below] at leaf
            exact decodes_left (decodesA rest x leaf)
          | true =>
            rw [below] at leaf
            exact decodes_right (decodesB rest x leaf)
    | d + 2 =>
      have lower : ∀ word t', word.length = d + 2 → below t word = some t' →
          ∃ d', treeDepth t' = .ok d' ∧ height t' < fuel := by
        intro word t' length found
        obtain ⟨t'', d', found', deep', strict⟩ := below_of_depth deep (Nat.le_of_eq length)
        obtain rfl := Option.some.inj (found.symm.trans found')
        have less := strict fun none_ => by rw [none_] at length; cases length
        exact ⟨d', deep', by omega⟩
      obtain ⟨table, run, filled⟩ := @treeWalk_filled (treeCompress fuel) t (d + 2) (d + 2) 0 0
        (List.replicate (1 <<< (d + 2)) (.found (-1))) deep (Nat.le_refl _) (Nat.two_pow_pos 0)
        (by rw [List.length_replicate, Nat.one_shiftLeft, Nat.zero_add])
        (fun word t' length found => by
          obtain ⟨d', deep', less⟩ := lower word t' length found
          obtain ⟨h, compressed, -⟩ := ih deep' less
          exact ⟨h, compressed⟩)
      refine ⟨.needBits (d + 2) table, ?_, fun word x leaf => ?_⟩
      · change treeTable (treeCompress fuel) t (d + 2) = _
        unfold treeTable
        rw [run]
      · have long := le_of_leafAt deep leaf
        have length : (word.take (d + 2)).length = d + 2 := List.length_take_of_le long
        obtain ⟨t', h, found, compressed, entry⟩ := filled.entry _ length
        obtain ⟨d', deep', less⟩ := lower _ t' length found
        obtain ⟨h', compressed', decodes⟩ := ih deep' less
        obtain rfl := Except.ok.inj (compressed.symm.trans compressed')
        have leaf' : leafAt t' (word.drop (d + 2)) = some x := by
          unfold leafAt at leaf ⊢
          rw [← List.take_append_drop (d + 2) word, below_append, found, Option.bind_some] at leaf
          exact leaf
        rw [Nat.zero_add, Nat.pow_zero, Nat.one_mul] at entry
        have all := decodes_table entry (decodes _ x leaf')
        rwa [length, List.take_append_drop] at all

end Tables

/-! ## The tree of a code -/

section Making

variable {lengths : List Nat} {bits : Nat → Option Nat} {maxbits : Nat}

theorem key_eq (v : Nat) {len : Nat} (small : len < 32) : key v len = v * 32 + len := by
  unfold key
  rw [← Nat.shiftLeft_add_eq_or_of_lt (i := 5) small, Nat.shiftLeft_eq]

theorem key_injective {v v' len len' : Nat} (small : len < 32) (small' : len' < 32)
    (same : key v len = key v' len') : v = v' ∧ len = len' := by
  rw [key_eq v small, key_eq v' small'] at same
  omega

/-- The keys of the first symbols, and no others. -/
structure Assigned (lengths : List Nat) (i : Nat) (bits : Nat → Option Nat) : Prop where
  at_ : ∀ s l, s < i → lengths[s]? = some l → 0 < l → bits (key (code lengths s) l) = some s
  only : ∀ q, bits q ≠ none → ∃ s l, lengths[s]? = some l ∧ 0 < l ∧ q = key (code lengths s) l

theorem Assigned.range (assigned : Assigned lengths lengths.length bits)
    (small : ∀ l ∈ lengths, l < 32) {v len : Nat} (short : len < 32) (positive : 0 < len) :
    bits (key v len) = none ↔ ¬ (first lengths len ≤ v ∧ v < kraft len lengths) := by
  constructor
  · rintro none_ ⟨low, high⟩
    obtain ⟨s, length, eq⟩ := exists_code positive low high
    have inside := (List.getElem?_eq_some_iff.mp length).1
    have some_ := assigned.at_ s len inside length positive
    rw [eq, none_] at some_
    cases some_
  · intro outside
    by_contra some_
    obtain ⟨s, l, length, positive', same⟩ := assigned.only _ some_
    obtain ⟨rfl, rfl⟩ := key_injective short (small l (List.mem_of_getElem? length)) same
    exact outside (code_lt length positive)

theorem double_or (v : Nat) : (v <<< 1) ||| 1 = 2 * v + 1 := by
  rw [← Nat.shiftLeft_add_eq_or_of_lt (i := 1) (by decide), Nat.shiftLeft_eq, Nat.pow_one,
    Nat.mul_comm]

theorem double_eq (v : Nat) : v <<< 1 = 2 * v := by
  rw [Nat.shiftLeft_eq, Nat.pow_one, Nat.mul_comm]

theorem treeMake_some {room v len i : Nat} (found : bits (key v len) = some i) :
    treeMake bits (room + 1) v len = .ok (.found i) := by
  rw [treeMake, found]

theorem treeMake_none {room v len : Nat} (none_ : bits (key v len) = none) {a b : Huffman}
    (left : treeMake bits room (2 * v) (len + 1) = .ok a)
    (right : treeMake bits room (2 * v + 1) (len + 1) = .ok b) :
    treeMake bits (room + 1) v len = .ok (.needBit a b) := by
  rw [treeMake, none_, double_or, double_eq, left, right]

/-- With a complete code there is a leaf at the end of each path. -/
theorem treeMake_total (assigned : Assigned lengths lengths.length bits)
    (small : ∀ l ∈ lengths, l < 32) {m : Nat} (short : m < 32) (complete : Complete lengths m)
    {room v len : Nat} (positive : 0 < len) (level : len ≤ m) (enough : m < len + room)
    (low : first lengths len ≤ v) (high : v < 2 ^ len) :
    ∃ t d, treeMake bits room v len = .ok t ∧ treeDepth t = .ok d ∧ height t < room := by
  induction room generalizing v len with
  | zero => omega
  | succ room ih =>
    cases found : bits (key v len) with
    | some i => exact ⟨_, 0, treeMake_some found, rfl, Nat.succ_pos room⟩
    | none =>
      have range := (assigned.range small (by omega : len < 32) positive).mp found
      have beyond : kraft len lengths ≤ v := Nat.not_lt.mp fun inside => range ⟨low, inside⟩
      have deeper : len ≠ m := by
        rintro rfl
        rw [complete] at beyond
        omega
      have power : 2 ^ (len + 1) = 2 * 2 ^ len := Nat.pow_succ'
      have next := first_succ lengths len
      obtain ⟨a, da, left, depthA, lowA⟩ := ih (Nat.succ_pos len) (by omega) (by omega)
        (show first lengths (len + 1) ≤ 2 * v by omega) (by omega)
      obtain ⟨b, db, right, depthB, lowB⟩ := ih (Nat.succ_pos len) (by omega) (by omega)
        (show first lengths (len + 1) ≤ 2 * v + 1 by omega) (by omega)
      refine ⟨.needBit a b, _, treeMake_none found left right,
        treeDepth_needBit.mpr ⟨da, db, depthA, depthB, rfl⟩, ?_⟩
      rw [height]
      omega

/-- The bits that are left of a word lead to its symbol. -/
theorem treeMake_leaf (assigned : Assigned lengths lengths.length bits)
    (small : ∀ l ∈ lengths, l < 32) {s l : Nat} (length : lengths[s]? = some l) {room j len : Nat}
    {t : Huffman} (positive : 0 < len) (level : l = len + j)
    (made : treeMake bits room (code lengths s / 2 ^ j) len = .ok t) :
    leafAt t (highFirst j (code lengths s)) = some (s : Int) := by
  have short := small l (List.mem_of_getElem? length)
  induction j generalizing room len t with
  | zero =>
    have inside := (List.getElem?_eq_some_iff.mp length).1
    have found := assigned.at_ s l inside length (by omega)
    rw [Nat.pow_zero, Nat.div_one] at made
    rw [level, Nat.add_zero] at found
    cases room with
    | zero => cases made
    | succ room =>
      rw [treeMake_some found] at made
      rw [← Except.ok.inj made]
      rfl
  | succ j ih =>
    cases room with
    | zero => cases made
    | succ room =>
      have begin_ := kraft_le_begin length level
      have found : bits (key (code lengths s / 2 ^ (j + 1)) len) = none :=
        (assigned.range small (by omega) positive).mpr fun inside => by omega
      have half : code lengths s / 2 ^ (j + 1) = code lengths s / 2 ^ j / 2 := by
        rw [Nat.pow_succ, Nat.div_div_eq_div_mul]
      rw [treeMake, found, double_or, double_eq] at made
      dsimp only at made
      cases left : treeMake bits room (2 * (code lengths s / 2 ^ (j + 1))) (len + 1) with
      | error e =>
        rw [left] at made
        cases made
      | ok a =>
        cases right : treeMake bits room (2 * (code lengths s / 2 ^ (j + 1)) + 1) (len + 1) with
        | error e =>
          rw [left, right] at made
          cases made
        | ok b =>
          rw [left, right] at made
          rw [← Except.ok.inj made, highFirst]
          rcases Nat.mod_two_eq_zero_or_one (code lengths s / 2 ^ j) with even | odd
          · have next : 2 * (code lengths s / 2 ^ (j + 1)) = code lengths s / 2 ^ j := by omega
            rw [next] at left
            rw [even]
            exact ih (by omega) (by omega) left
          · have next : 2 * (code lengths s / 2 ^ (j + 1)) + 1 = code lengths s / 2 ^ j := by
              omega
            rw [next] at right
            rw [odd]
            exact ih (by omega) (by omega) right

/-- No symbol is found on a path without keys. -/
theorem treeMake_fails {room v len : Nat} (positive : 0 < v)
    (none_ : ∀ v len, 0 < v → bits (key v len) = none) :
    treeMake bits room v len = .error .invalidHuffman := by
  induction room generalizing v len with
  | zero => rw [treeMake]
  | succ room ih =>
    have left := @ih (2 * v) (len + 1) (by omega)
    rw [treeMake, none_ v len positive, double_eq, left]

end Making

/-! ## The keys of a code -/

section Keys

variable {lengths : List Nat} {maxbits : Nat}

theorem countLengths_ok {ls counts : List Nat} (small : ∀ l ∈ ls, l < maxbits)
    (size : counts.length = maxbits) : ∃ counts', countLengths maxbits ls counts = .ok counts' ∧
      ∀ i < maxbits, counts'[i]? = some (counts[i]?.getD 0 + ls.count i) := by
  induction ls generalizing counts with
  | nil =>
    refine ⟨counts, by rw [countLengths], fun i inside => ?_⟩
    rw [List.getElem?_eq_getElem (by omega), Option.getD_some, List.count_nil, Nat.add_zero]
  | cons p rest ih =>
    have first := small p List.mem_cons_self
    have size' : (counts.modify p fun n => n + 1).length = maxbits := by
      rw [List.length_modify, size]
    obtain ⟨counts', run, all⟩ := ih (fun l member => small l (.tail p member)) size'
    refine ⟨counts', ?_, fun i inside => ?_⟩
    · rw [countLengths, if_neg (Nat.not_le.mpr first)]
      exact run
    · have here : counts[i]? = some counts[i] := List.getElem?_eq_getElem (by omega)
      rw [all i inside, List.getElem?_modify, here, Option.map_eq_map, Option.map_some,
        Option.getD_some, Option.getD_some, List.count_cons]
      by_cases same : p = i
      · rw [if_pos same, if_pos (beq_iff_eq.mpr same), Nat.add_right_comm, Nat.add_assoc]
      · rw [if_neg same, if_neg (mt beq_iff_eq.mp same)]
        rfl

theorem firstCodes_get {counts tmp : List Nat} {k i : Nat} (positive : 0 < i)
    (counted : ∀ j < i + k, counts[j]?.getD 0 = lengths.count j) (fits : i + k ≤ tmp.length)
    (start : ∀ j < i, tmp[j]? = some (first lengths (j + 1))) :
    ∀ j < i + k, (firstCodes counts k i (first lengths i) tmp)[j]? =
      some (first lengths (j + 1)) := by
  induction k generalizing i tmp with
  | zero => exact start
  | succ k ih =>
    have code_ : (first lengths i + counts[i]?.getD 0) <<< 1 = first lengths (i + 1) := by
      rw [counted i (by omega), double_eq, first, used, if_neg (Nat.ne_of_gt positive)]
    have fits' : i + 1 + k ≤ (tmp.set i (first lengths (i + 1))).length := by
      rw [List.length_set]
      omega
    have next := ih (Nat.succ_pos i) (fun j below => counted j (by omega)) fits' (fun j below => by
        by_cases same : j = i
        · rw [same]
          exact List.getElem?_set_self (by omega)
        · rw [List.getElem?_set_ne (Ne.symm same)]
          exact start j (by omega))
    intro j below
    rw [firstCodes, code_]
    exact next j (by omega)

theorem assign_assigned (small : ∀ l ∈ lengths, l < maxbits) (short : maxbits ≤ 32)
    {done rest tmp : List Nat} {bits : Nat → Option Nat} (parts : lengths = done ++ rest)
    (next : ∀ l, 0 < l → l < maxbits →
      tmp[l - 1]? = some (first lengths l + done.count l))
    (assigned : Assigned lengths done.length bits) :
    Assigned lengths lengths.length (assign rest done.length tmp bits) := by
  induction rest generalizing done tmp bits with
  | nil =>
    rw [List.append_nil] at parts
    rw [assign, parts]
    rw [parts] at assigned
    exact assigned
  | cons l rest ih =>
    have here : lengths[done.length]? = some l := by
      rw [parts, List.getElem?_append_right (Nat.le_refl _), Nat.sub_self]
      rfl
    have within : l < maxbits := small l (List.mem_of_getElem? here)
    have parts' : lengths = (done ++ [l]) ++ rest := by
      rw [parts, List.append_assoc]
      rfl
    have longer : (done ++ [l]).length = done.length + 1 := List.length_append
    have counted : ∀ l', (done ++ [l]).count l' = done.count l' + if l = l' then 1 else 0 := by
      intro l'
      rw [List.count_append, List.count_singleton]
      by_cases same : l = l'
      · rw [if_pos same, if_pos (beq_iff_eq.mpr same)]
      · rw [if_neg same, if_neg (mt beq_iff_eq.mp same)]
    by_cases unused : l = 0
    · have step : assign (l :: rest) done.length tmp bits =
          assign rest (done ++ [l]).length tmp bits := by
        rw [assign, if_neg (not_not_intro unused), longer]
      rw [step]
      refine ih parts' (fun l' positive below => ?_) ⟨fun s l' before length positive => ?_,
        assigned.only⟩
      · rw [next l' positive below, counted, if_neg (by omega), Nat.add_zero]
      · rw [longer] at before
        refine assigned.at_ s l' ?_ length positive
        refine Nat.lt_of_le_of_ne (Nat.le_of_lt_succ before) fun same => ?_
        rw [same, here] at length
        have := Option.some.inj length
        omega
    · have positive : 0 < l := Nat.pos_of_ne_zero unused
      have word : code lengths done.length = first lengths l + done.count l := by
        rw [code_eq here, parts, List.take_left]
      have entry := next l positive within
      have room : l - 1 < tmp.length := (List.getElem?_eq_some_iff.mp entry).1
      have step : assign (l :: rest) done.length tmp bits =
          assign rest (done ++ [l]).length
            (tmp.set (l - 1) (code lengths done.length + 1))
            (Function.update bits (key (code lengths done.length) l) (some done.length)) := by
        rw [assign, if_pos unused, entry, Option.getD_some, ← word, longer]
      rw [step]
      refine ih parts' (fun l' positive' below => ?_) ⟨fun s l' before length positive' => ?_,
        fun q found => ?_⟩
      · rw [counted]
        by_cases same : l = l'
        · rw [← same, List.getElem?_set_self room, word, if_pos rfl, Nat.add_assoc]
        · rw [List.getElem?_set_ne (by omega), next l' positive' below, if_neg same, Nat.add_zero]
      · rw [longer] at before
        by_cases last : s = done.length
        · rw [last, here] at length
          obtain rfl := Option.some.inj length
          rw [last]
          exact Function.update_self ..
        · have below := small l' (List.mem_of_getElem? length)
          rw [Function.update_of_ne]
          · exact assigned.at_ s l' (by omega) length positive'
          · intro same
            obtain ⟨equal, rfl⟩ := key_injective (by omega) (by omega) same
            exact last (code_injective length here equal)
      · by_cases same : q = key (code lengths done.length) l
        · exact ⟨done.length, l, here, positive, same⟩
        · rw [Function.update_of_ne same] at found
          exact assigned.only q found

end Keys

/-! ## Making a decoder -/

/-- Every code word is decoded to its symbol. -/
def Decoder (lengths : List Nat) (h : Huffman) : Prop :=
  ∀ s l, lengths[s]? = some l → 0 < l → Decodes h (highFirst l (code lengths s)) (s : Int)

/-- There is one code word, which has one bit. -/
def Single (lengths : List Nat) : Prop := lengths.count 1 = 1 ∧ ∀ l ∈ lengths, l ≤ 1

section Make

variable {before lengths after : List Nat} {maxbits : Nat}

theorem slice_eq (before lengths after : List Nat) :
    ((before ++ (lengths ++ after)).drop before.length).take lengths.length = lengths := by
  rw [List.drop_left, List.take_left]

/-- The keys of all symbols are found. -/
theorem make_keys (small : ∀ l ∈ lengths, l < maxbits) (short : maxbits ≤ 32)
    (several : lengths.length ≠ 1) : ∃ bits, Assigned lengths lengths.length bits ∧
      make (before ++ (lengths ++ after)) before.length lengths.length maxbits =
        match treeMake bits maxbits 0 1, treeMake bits maxbits 1 1 with
        | .ok a, .ok b => treeCompress (maxbits + 2) (.needBit a b)
        | .error e, _ => .error e
        | _, .error e => .error e := by
  have size : (List.replicate maxbits 0).length = maxbits := List.length_replicate
  obtain ⟨counts, run, counted⟩ := countLengths_ok small size
  have codes : ∀ l, 0 < l → l < maxbits →
      (firstCodes counts (maxbits - 2) 1 0 (List.replicate maxbits 0))[l - 1]? =
        some (first lengths l) := by
    intro l positive below
    have get := @firstCodes_get lengths counts (List.replicate maxbits 0) (maxbits - 2) 1
      Nat.zero_lt_one
      (fun j inside => by
        rw [counted j (by omega), Option.getD_some, List.getElem?_replicate, if_pos (by omega),
          Option.getD_some, Nat.zero_add])
      (by rw [List.length_replicate]; omega)
      (fun j inside => by
        rw [List.getElem?_replicate, if_pos (by omega), Nat.lt_one_iff.mp inside, first_succ,
          kraft_zero])
      (l - 1) (by omega)
    rw [first_succ, kraft_zero, Nat.sub_add_cancel positive] at get
    exact get
  have assigned := @assign_assigned lengths maxbits small short [] lengths
    (firstCodes counts (maxbits - 2) 1 0 (List.replicate maxbits 0)) (fun _ => none) rfl
    (fun l positive below => by rw [codes l positive below, List.count_nil, Nat.add_zero])
    ⟨fun s l before => absurd before (Nat.not_lt_zero s), fun q none_ => absurd rfl none_⟩
  refine ⟨_, assigned, ?_⟩
  unfold make
  dsimp only
  rw [slice_eq, if_neg several, if_neg (Nat.not_lt.mpr short), run]
  rfl

/-- A complete code is decoded. -/
theorem make_complete (small : ∀ l ∈ lengths, l < maxbits) (short : maxbits ≤ 32)
    (several : lengths.length ≠ 1) (complete : Complete lengths (maxbits - 1)) :
    ∃ h, make (before ++ (lengths ++ after)) before.length lengths.length maxbits = .ok h ∧
      Decoder lengths h := by
  obtain ⟨bits, assigned, made⟩ := @make_keys before lengths after maxbits small short several
  have small' : ∀ l ∈ lengths, l < 32 :=
    fun l member => Nat.lt_of_lt_of_le (small l member) short
  have deep : 1 ≤ maxbits - 1 := by
    refine Nat.pos_of_ne_zero fun none_ => ?_
    have whole : kraft (maxbits - 1) lengths = 2 ^ (maxbits - 1) := complete
    rw [none_, kraft_zero] at whole
    cases whole
  have start : first lengths 1 = 0 := by rw [first_succ, kraft_zero]
  obtain ⟨a, da, left, depthA, lowA⟩ := treeMake_total assigned small'
    (by omega : maxbits - 1 < 32) complete Nat.zero_lt_one deep
    (by omega : maxbits - 1 < 1 + maxbits) (Nat.le_of_eq start) (by decide : 0 < 2 ^ 1)
  obtain ⟨b, db, right, depthB, lowB⟩ := treeMake_total assigned small'
    (by omega : maxbits - 1 < 32) complete Nat.zero_lt_one deep
    (by omega : maxbits - 1 < 1 + maxbits) (by rw [start]; exact Nat.zero_le 1)
    (by decide : 1 < 2 ^ 1)
  obtain ⟨h, compressed, decodes⟩ := @treeCompress_decodes (.needBit a b) (maxbits + 2) _
    (treeDepth_needBit.mpr ⟨da, db, depthA, depthB, rfl⟩) (by rw [height]; omega)
  refine ⟨h, ?_, fun s l length positive => decodes _ _ ?_⟩
  · rw [made, left, right]
    exact compressed
  · obtain ⟨j, rfl⟩ := Nat.exists_eq_add_of_le' positive
    have bound : code lengths s < 2 ^ (j + 1) :=
      Nat.lt_of_lt_of_le (code_lt length positive).2
        (kraft_le (by have := small _ (List.mem_of_getElem? length); omega) complete)
    have top : code lengths s / 2 ^ j < 2 := by
      rw [Nat.div_lt_iff_lt_mul (Nat.two_pow_pos j), ← Nat.pow_succ']
      exact bound
    have leaf := @treeMake_leaf lengths bits assigned small' s (j + 1) length maxbits j 1
    rw [highFirst]
    rcases Nat.lt_or_ge (code lengths s / 2 ^ j) 1 with zero | one
    · rw [Nat.lt_one_iff.mp zero]
      exact leaf Nat.zero_lt_one (Nat.add_comm j 1) (by rw [Nat.lt_one_iff.mp zero]; exact left)
    · have eq : code lengths s / 2 ^ j = 1 := by omega
      rw [eq]
      exact leaf Nat.zero_lt_one (Nat.add_comm j 1) (by rw [eq]; exact right)

/-- One code word of several symbols is refused. -/
theorem make_single (small : ∀ l ∈ lengths, l < maxbits) (short : maxbits ≤ 32)
    (several : lengths.length ≠ 1) (single : Single lengths) :
    make (before ++ (lengths ++ after)) before.length lengths.length maxbits =
      .error .invalidHuffman := by
  obtain ⟨bits, assigned, made⟩ := @make_keys before lengths after maxbits small short several
  have all : kraft 1 lengths = 1 := by
    rw [kraft_succ, kraft_zero, single.1]
  have none_ : ∀ v len, 0 < v → bits (key v len) = none := by
    intro v len positive
    by_contra found
    obtain ⟨s, l, length, some_, same⟩ := assigned.only _ found
    have one : l = 1 := Nat.le_antisymm (single.2 l (List.mem_of_getElem? length)) some_
    have high := (code_lt length some_).2
    rw [one, all] at high
    have large : v * 32 ≤ key v len := by
      unfold key
      rw [← Nat.shiftLeft_eq v 5]
      exact Nat.left_le_or
    rw [same, one, key_eq _ (by decide)] at large
    omega
  have right : treeMake bits maxbits 1 1 = .error .invalidHuffman :=
    treeMake_fails Nat.zero_lt_one none_
  obtain ⟨s, length, zero⟩ := @exists_code lengths 1 0 Nat.zero_lt_one
    (by rw [first_succ, kraft_zero]) (by rw [all]; exact Nat.zero_lt_one)
  have found := assigned.at_ s 1 (List.getElem?_eq_some_iff.mp length).1 length Nat.zero_lt_one
  obtain ⟨room, rfl⟩ := Nat.exists_eq_add_of_lt (small 1 (List.mem_of_getElem? length))
  rw [zero] at found
  rw [made, right, treeMake_some found]

end Make

end Haxe.Source.Inflate
