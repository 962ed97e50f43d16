import Haxe.Source.Extlib.UTF8

/-!
# Boundaries of characters in UTF-8

A character is a head byte with the bytes behind it, which no head byte looks like. From the
boundary of a character `next` and `prev` go to the neighbouring boundaries, and `look` reads
the code point back.
-/

namespace Haxe.Source.UTF8

/-- How many bytes follow a head byte. -/
def extra (head : Nat) : Nat :=
  if head < 0x80 then 0
  else if head ≤ 0xdf then 1
  else if head ≤ 0xef then 2
  else if head ≤ 0xf7 then 3
  else if head ≤ 0xfb then 4
  else 5

/-- The bits that mark a head byte with some bytes behind it. -/
@[grind =] def mark : Nat → Nat
  | 0 => 0
  | 1 => 0xc0
  | 2 => 0xe0
  | 3 => 0xf0
  | 4 => 0xf8
  | _ => 0xfc

/-- The lowest bits of a code point, six in each byte. -/
@[grind =] def tailBytes (k : Nat) : Nat → List Nat
  | 0 => []
  | n + 1 => (0x80 + k / 64 ^ n % 64) :: tailBytes k n

theorem tailBytes_length (k n : Nat) : (tailBytes k n).length = n := by
  induction n with
  | zero => rfl
  | succ n ih => rw [tailBytes, List.length_cons, ih]

theorem tailBytes_inside (k n : Nat) : ∀ b ∈ tailBytes k n, 0x80 ≤ b ∧ b < 0xc0 := by
  induction n with
  | zero => exact fun b none => absurd none List.not_mem_nil
  | succ n ih =>
    intro b member
    rcases List.mem_cons.mp member with rfl | rest
    · omega
    · exact ih b rest

theorem continuation (x : Nat) : 0x80 ||| (x &&& 0b111111) = 0x80 + x % 64 := by
  have low : x &&& 0b111111 = x % 64 := Nat.and_two_pow_sub_one_eq_mod x 6
  rw [low]
  exact (Nat.two_pow_add_eq_or_of_lt (i := 7) (by omega) 1).symm

/-- The form of a character. -/
theorem addUchar_form (u : CodePoint) : ∃ n, n ≤ 5 ∧
    addUchar u = (mark n + u.val / 64 ^ n) :: tailBytes u.val n ∧
    extra (mark n + u.val / 64 ^ n) = n ∧ (n = 0 ↔ u.val < 0x80) ∧
    (u.val < 0x80 ∨ 0xc2 ≤ mark n + u.val / 64 ^ n ∧ mark n + u.val / 64 ^ n ≤ 0xfd) := by
  have bound := u.isLt
  have two : u.val ≤ 0x7ff → 0xc0 ||| (u.val / 2 ^ 6) = 0xc0 + u.val / 2 ^ 6 := fun small =>
    (Nat.two_pow_add_eq_or_of_lt (i := 6) (by omega) 3).symm
  have three : u.val ≤ 0xffff → 0xe0 ||| (u.val / 2 ^ 12) = 0xe0 + u.val / 2 ^ 12 := fun small =>
    (Nat.two_pow_add_eq_or_of_lt (i := 5) (by omega) 7).symm
  unfold addUchar
  simp only [continuation, Nat.shiftRight_eq_div_pow]
  split
  · refine ⟨5, by omega, ?_, ?_, by omega, by simp only [mark]; omega⟩
    · simp [mark, tailBytes]
    · simp only [extra, mark]
      split_ifs <;> omega
  · split
    · refine ⟨0, by omega, ?_, ?_, by omega, by omega⟩
      · simp [mark, tailBytes]
      · simp only [extra, mark]
        rw [if_pos (by omega)]
    · split
      · refine ⟨1, by omega, ?_, ?_, by omega, by simp only [mark]; omega⟩
        · rw [two (by omega)]
          simp [mark, tailBytes]
        · simp only [extra, mark]
          split_ifs <;> omega
      · split
        · refine ⟨2, by omega, ?_, ?_, by omega, by simp only [mark]; omega⟩
          · rw [three (by omega)]
            simp [mark, tailBytes]
          · simp only [extra, mark]
            split_ifs <;> omega
        · split
          · refine ⟨3, by omega, ?_, ?_, by omega, by simp only [mark]; omega⟩
            · simp [mark, tailBytes]
            · simp only [extra, mark]
              split_ifs <;> omega
          · refine ⟨4, by omega, ?_, ?_, by omega, by simp only [mark]; omega⟩
            · simp [mark, tailBytes]
            · simp only [extra, mark]
              split_ifs <;> omega

/-- What makes a list of bytes a character. -/
structure Shape (head : Nat) (tail : List Nat) : Prop where
  range : head < 0x80 ∨ 0xc2 ≤ head ∧ head ≤ 0xfd
  length : tail.length = extra head
  inside : ∀ b ∈ tail, 0x80 ≤ b ∧ b < 0xc0

theorem addUchar_shape (u : CodePoint) : ∃ head tail, addUchar u = head :: tail ∧
    Shape head tail ∧ (u.val < 0x80 ↔ head < 0x80) := by
  obtain ⟨n, -, form, count, single, range⟩ := addUchar_form u
  refine ⟨_, _, form, ⟨?_, ?_, tailBytes_inside _ _⟩, ?_⟩
  · rcases range with small | large
    · obtain rfl := single.mpr small
      left
      simpa [mark] using small
    · exact Or.inr large
  · rw [tailBytes_length, count]
  · rcases range with small | large
    · obtain rfl := single.mpr small
      simp [mark]
    · have big : ¬ u.val < 0x80 := by
        intro small
        obtain rfl := single.mpr small
        simp only [mark, Nat.pow_zero, Nat.div_one] at large
        omega
      omega

/-! ## Encoded texts -/

@[simp]
theorem encode_nil : encode [] = [] := rfl

@[simp]
theorem encode_cons (u : CodePoint) (points : List CodePoint) :
    encode (u :: points) = addUchar u ++ encode points := List.flatMap_cons

@[simp]
theorem encode_append (a b : List CodePoint) : encode (a ++ b) = encode a ++ encode b :=
  List.flatMap_append

theorem addUchar_ne_nil (u : CodePoint) : addUchar u ≠ [] := by
  obtain ⟨head, tail, form, -⟩ := addUchar_shape u
  rw [form]
  exact List.cons_ne_nil _ _

theorem addUchar_length_pos (u : CodePoint) : 0 < (addUchar u).length :=
  List.length_pos_iff.mpr (addUchar_ne_nil u)

theorem encode_eq_nil {points : List CodePoint} : encode points = [] ↔ points = [] := by
  cases points with
  | nil => simp
  | cons u points => simp [addUchar_ne_nil]

theorem length_le_encode (points : List CodePoint) : points.length ≤ (encode points).length := by
  induction points with
  | nil => rfl
  | cons u points ih =>
    have := addUchar_length_pos u
    rw [encode_cons, List.length_append, List.length_cons]
    omega

theorem charCode_of_getElem? {s : List Nat} {i n : Nat} (found : s[i]? = some n) :
    charCode s i = .ok n := by
  unfold charCode
  rw [if_pos (by omega), Int.toNat_natCast, found]

/-- From the boundary in front of a character to the one behind it. -/
theorem next_boundary (pre : List Nat) (u : CodePoint) (post : List Nat) :
    next (pre ++ (addUchar u ++ post)) pre.length =
      .ok ((pre.length + (addUchar u).length : Nat)) := by
  obtain ⟨head, tail, form, shape, -⟩ := addUchar_shape u
  have read : charCode (pre ++ (addUchar u ++ post)) pre.length = .ok head := by
    apply charCode_of_getElem?
    rw [List.getElem?_append_right (Nat.le_refl _), form]
    simp
  have length : (addUchar u).length = extra head + 1 := by
    rw [form, List.length_cons, shape.length]
  have range := shape.range
  unfold next
  rw [read]
  simp only [bind, Except.bind, pure, Except.pure]
  rw [length]
  unfold extra
  split_ifs <;> first | omega | rfl

/-- At the end of a text there is no next character. -/
theorem next_end (s : List Nat) : next s s.length = .error .invalidArgument := by
  unfold next charCode
  rw [if_pos (by omega), Int.toNat_natCast, List.getElem?_eq_none (Nat.le_refl _)]
  rfl

/-- From inside a character to the boundary behind it. -/
theorem searchHead_inside (s : List Nat) (i n : Nat)
    (inside : ∀ k, i ≤ k → k < n → ∃ b, s[k]? = some b ∧ 0x80 ≤ b ∧ b < 0xc0)
    (order : i ≤ n) (stop : ∀ b, s[n]? = some b → b < 0x80 ∨ 0xc2 ≤ b) :
    searchHead s i = n := by
  induction todo : n - i generalizing i with
  | zero =>
    obtain rfl : i = n := by omega
    unfold searchHead
    split
    · rfl
    · rename_i b read
      rw [if_pos (stop b read)]
  | succ todo' ih =>
    obtain ⟨b, read, low, high⟩ := inside i (Nat.le_refl i) (by omega)
    unfold searchHead
    split
    · rename_i none
      rw [none] at read
      cases read
    · rename_i b' read'
      obtain rfl := Option.some.inj (read.symm.trans read')
      rw [if_neg (by omega)]
      exact ih (i + 1) (fun k from' to' => inside k (by omega) to') (by omega) (by omega)

/-- Back from inside a character, or from its end, to its head. -/
theorem searchHeadBackward_inside (s : List Nat) (i n : Nat) (order : n ≤ i)
    (inside : ∀ k, n < k → k ≤ i → ∃ b, s[k]? = some b ∧ 0x80 ≤ b ∧ b < 0xc0)
    {head : Nat} (stop : s[n]? = some head) (isHead : head < 0x80 ∨ 0xc2 ≤ head) :
    searchHeadBackward s i = .ok n := by
  induction todo : i - n generalizing i with
  | zero =>
    obtain rfl : i = n := by omega
    unfold searchHeadBackward
    rw [if_neg (by omega), charCode_of_getElem? stop]
    simp only [bind, Except.bind]
    rw [if_pos (by omega)]
    rfl
  | succ todo' ih =>
    obtain ⟨b, read, low, high⟩ := inside i (by omega) (Nat.le_refl i)
    unfold searchHeadBackward
    rw [if_neg (by omega), charCode_of_getElem? read]
    simp only [bind, Except.bind]
    rw [if_neg (by omega)]
    have back : (i : Int) - 1 = (i - 1 : Nat) := by omega
    rw [back]
    exact ih (i - 1) (by omega) (fun k above upto => inside k above (by omega)) (by omega)

/-- The byte at a place of a character in a text. -/
theorem getElem?_character (pre : List Nat) (u : CodePoint) (post : List Nat) {k : Nat}
    (inside : k < (addUchar u).length) :
    (pre ++ (addUchar u ++ post))[pre.length + k]? = (addUchar u)[k]? := by
  rw [List.getElem?_append_right (by omega), Nat.add_sub_cancel_left,
    List.getElem?_append_left inside]

/-- From the boundary behind a character to the one in front of it. -/
theorem prev_boundary (pre : List Nat) (u : CodePoint) (post : List Nat) :
    prev (pre ++ (addUchar u ++ post)) ((pre.length + (addUchar u).length : Nat)) =
      .ok pre.length := by
  obtain ⟨head, tail, form, shape, -⟩ := addUchar_shape u
  have positive := addUchar_length_pos u
  have back : ((pre.length + (addUchar u).length : Nat) : Int) - 1 =
      (pre.length + (addUchar u).length - 1 : Nat) := by omega
  unfold prev
  rw [back]
  refine @searchHeadBackward_inside _ _ _ (by omega) (fun k above upto => ?_) head ?_ ?_
  · obtain ⟨j, rfl⟩ : ∃ j, k = pre.length + (j + 1) := ⟨k - pre.length - 1, by omega⟩
    have short : j < tail.length := by
      rw [form, List.length_cons] at upto
      omega
    refine ⟨tail[j], ?_, shape.inside _ (List.getElem_mem short)⟩
    rw [getElem?_character pre u post (by omega), form, List.getElem?_cons_succ,
      List.getElem?_eq_getElem short]
  · have := getElem?_character pre u post positive
    rw [Nat.add_zero] at this
    rw [this, form]
    rfl
  · exact shape.range.imp id And.left

/-- In front of all characters there is no previous one. -/
theorem prev_start (s : List Nat) : prev s 0 = .ok (-1) := by
  unfold prev searchHeadBackward
  rw [if_pos (by omega)]

/-- The bits of the bytes behind the head give the code point back. -/
theorem foldl_tailBytes (k n : Nat) :
    (tailBytes k n).foldl (fun (n : Int) m => (n * 64).lor (0x7f &&& m : Nat))
      ((k / 64 ^ n : Nat) : Int) = k := by
  induction n with
  | zero => simp [tailBytes]
  | succ n ih =>
    have bits : (0x7f &&& (0x80 + k / 64 ^ n % 64)) = k / 64 ^ n % 64 := by
      rw [Nat.and_comm]
      have := Nat.and_two_pow_sub_one_eq_mod (0x80 + k / 64 ^ n % 64) 7
      rw [show (0x7f : Nat) = 2 ^ 7 - 1 from rfl, this]
      omega
    have joined : (((k / 64 ^ (n + 1) : Nat) : Int) * 64).lor ((k / 64 ^ n % 64 : Nat) : Int) =
        ((k / 64 ^ n : Nat) : Int) := by
      have shifted : ((k / 64 ^ (n + 1) : Nat) : Int) * 64 =
          ((2 ^ 6 * (k / 64 ^ n / 64) : Nat) : Int) := by
        rw [Nat.pow_succ, ← Nat.div_div_eq_div_mul]
        omega
      rw [shifted]
      show (((2 ^ 6 * (k / 64 ^ n / 64)) ||| (k / 64 ^ n % 64) : Nat) : Int) = _
      rw [← Nat.two_pow_add_eq_or_of_lt (i := 6) (by omega)]
      omega
    rw [tailBytes, List.foldl_cons, bits, joined]
    exact ih

/-- `look` at the boundary in front of a character. -/
theorem look_boundary (pre : List Nat) (u : CodePoint) (post : List Nat) :
    look (pre ++ (addUchar u ++ post)) pre.length =
      .ok ((u.val : Int), ((addUchar u).length : Int)) := by
  obtain ⟨n, small, form, count, single, range⟩ := addUchar_form u
  have read : charCode (pre ++ (addUchar u ++ post)) pre.length =
      .ok (mark n + u.val / 64 ^ n) := by
    apply charCode_of_getElem?
    rw [List.getElem?_append_right (Nat.le_refl _), form]
    simp
  have length : (addUchar u).length = n + 1 := by
    rw [form, List.length_cons, tailBytes_length]
  have following :
      follow (pre ++ (addUchar u ++ post)) pre.length ((u.val / 64 ^ n : Nat) : Int) n =
        .ok ((u.val : Int), ((addUchar u).length : Int)) := by
    obtain ⟨b, last⟩ : ∃ b, (pre ++ (addUchar u ++ post))[pre.length + n]? = some b := by
      rw [getElem?_character pre u post (by omega)]
      exact ⟨_, List.getElem?_eq_getElem (by omega)⟩
    have bytes : ((pre ++ (addUchar u ++ post)).drop (pre.length + 1)).take n =
        tailBytes u.val n := by
      rw [List.drop_append, List.drop_eq_nil_of_le (by omega), form]
      simp [tailBytes_length]
    unfold follow
    rw [show (pre.length : Int) + (n : Int) = ((pre.length + n : Nat) : Int) by omega,
      charCode_of_getElem? last, Int.toNat_natCast, bytes]
    simp only [bind, Except.bind, pure, Except.pure]
    rw [foldl_tailBytes, length]
    rfl
  unfold look
  rw [read]
  simp only [bind, Except.bind]
  unfold extra at count
  by_cases first : mark n + u.val / 64 ^ n < 0x80
  · rw [if_pos first] at count
    subst count
    rw [if_pos first, length]
    simp [mark, pure, Except.pure]
  · rw [if_neg first] at count ⊢
    split_ifs at count ⊢
    all_goals first | omega | skip
    all_goals subst count
    all_goals simpa [mark] using following

/-! ## Offsets of characters -/

/-- The byte at which a character starts, or the end of the text. -/
def offset (points : List CodePoint) (c : Nat) : Nat := (encode (points.take c)).length

variable {points : List CodePoint}

@[simp]
theorem offset_zero (points : List CodePoint) : offset points 0 = 0 := rfl

theorem offset_length (points : List CodePoint) :
    offset points points.length = (encode points).length := by
  unfold offset
  rw [List.take_length]

theorem offset_of_length_le {c : Nat} (beyond : points.length ≤ c) :
    offset points c = (encode points).length := by
  unfold offset
  rw [List.take_of_length_le beyond]

/-- A text around one of its characters. -/
theorem encode_split {c : Nat} (inside : c < points.length) :
    encode points =
      encode (points.take c) ++ (addUchar points[c] ++ encode (points.drop (c + 1))) := by
  conv_lhs => rw [← List.take_append_drop c points, List.drop_eq_getElem_cons inside]
  rw [encode_append, encode_cons]

theorem offset_succ {c : Nat} (inside : c < points.length) :
    offset points (c + 1) = offset points c + (addUchar points[c]).length := by
  unfold offset
  rw [← List.take_append_getElem inside, encode_append, List.length_append]
  simp

theorem offset_add (points : List CodePoint) (c n : Nat) :
    offset points (c + n) = offset points c + offset (points.drop c) n := by
  unfold offset
  rw [List.take_add, encode_append, List.length_append]

theorem offset_mono {c d : Nat} (order : c ≤ d) : offset points c ≤ offset points d := by
  obtain ⟨n, rfl⟩ := Nat.exists_eq_add_of_le order
  rw [offset_add]
  exact Nat.le_add_right _ _

theorem offset_lt {c d : Nat} (order : c < d) (inside : c < points.length) :
    offset points c < offset points d := by
  have step := offset_succ inside
  have positive := addUchar_length_pos points[c]
  have rest : offset points (c + 1) ≤ offset points d := offset_mono order
  omega

theorem offset_le_length (points : List CodePoint) (c : Nat) :
    offset points c ≤ (encode points).length := by
  rcases Nat.le_total c points.length with inside | beyond
  · rw [← offset_length]
    exact offset_mono inside
  · exact Nat.le_of_eq (offset_of_length_le beyond)

theorem offset_lt_length_iff {c : Nat} : offset points c < (encode points).length ↔
    c < points.length := by
  constructor
  · intro inside
    by_contra beyond
    rw [offset_of_length_le (Nat.not_lt.mp beyond)] at inside
    exact Nat.lt_irrefl _ inside
  · intro inside
    rw [← offset_length]
    exact offset_lt inside inside

theorem encode_drop (points : List CodePoint) (c : Nat) :
    (encode points).drop (offset points c) = encode (points.drop c) := by
  conv_lhs => rw [← List.take_append_drop c points, encode_append]
  unfold offset
  rw [List.take_append_drop, List.drop_left]

theorem encode_take (points : List CodePoint) (c : Nat) :
    (encode points).take (offset points c) = encode (points.take c) := by
  conv_lhs => rw [← List.take_append_drop c points, encode_append]
  unfold offset
  rw [List.take_append_drop, List.take_left]

theorem next_offset {c : Nat} (inside : c < points.length) :
    next (encode points) (offset points c) = .ok (offset points (c + 1)) := by
  rw [offset_succ inside]
  conv_lhs => rw [encode_split inside]
  exact next_boundary _ _ _

theorem prev_offset {c : Nat} (inside : c < points.length) :
    prev (encode points) (offset points (c + 1)) = .ok (offset points c) := by
  rw [offset_succ inside]
  conv_lhs => rw [encode_split inside]
  exact prev_boundary _ _ _

theorem look_offset {c : Nat} (inside : c < points.length) :
    look (encode points) (offset points c) =
      .ok ((points[c].val : Int), ((addUchar points[c]).length : Int)) := by
  conv_lhs => rw [encode_split inside]
  exact look_boundary _ _ _

theorem nextTimes_offset {c n : Nat} (inside : c + n ≤ points.length) :
    nextTimes (encode points) n (offset points c) = .ok (offset points (c + n)) := by
  induction n generalizing c with
  | zero => rfl
  | succ n ih =>
    unfold nextTimes
    rw [next_offset (by omega)]
    have rest := @ih (c + 1) (by omega)
    rw [show c + 1 + n = c + (n + 1) by omega] at rest
    exact rest

/-- Beyond the end of a text there is no character. -/
theorem nextTimes_beyond {c n : Nat} (inside : c ≤ points.length) (beyond : points.length < c + n) :
    nextTimes (encode points) n (offset points c) = .error .invalidArgument := by
  induction n generalizing c with
  | zero => omega
  | succ n ih =>
    unfold nextTimes
    by_cases last : c = points.length
    · rw [last, offset_length, next_end]
      rfl
    · rw [next_offset (by omega)]
      exact ih (by omega) (by omega)

theorem prevTimes_offset {c n : Nat} (inside : c + n ≤ points.length) :
    prevTimes (encode points) n (offset points (c + n)) = .ok (offset points c) := by
  induction n with
  | zero => rfl
  | succ n ih =>
    unfold prevTimes
    rw [← Nat.add_assoc, prev_offset (by omega)]
    exact ih (by omega)

theorem ucharOfInt_val (u : CodePoint) : ucharOfInt u.val = .ok u := by
  have bounds : (0 : Int) ≤ u.val ∧ (u.val : Int) < 2 ^ 31 := by
    have := u.isLt
    omega
  unfold ucharOfInt
  rw [dif_pos bounds]
  exact congrArg Except.ok (Fin.ext (Int.toNat_natCast u.val))

theorem iterLoop_step {s : List Nat} {fuel : Nat} {i j u width : Int} {point : CodePoint}
    {rest : List CodePoint} (inside : ¬ i ≥ s.length) (seen : look s i = .ok (u, width))
    (isPoint : ucharOfInt u = .ok point) (behind : next s i = .ok j)
    (others : iterLoop s fuel j = .ok rest) :
    iterLoop s (fuel + 1) i = .ok (point :: rest) := by
  rw [iterLoop, if_neg inside, seen]
  simp only [bind, Except.bind, pure, Except.pure]
  rw [isPoint, behind]
  simp only [others]

theorem iterLoop_offset {c fuel : Nat} (inside : c ≤ points.length)
    (enough : points.length - c < fuel) :
    iterLoop (encode points) fuel (offset points c) = .ok (points.drop c) := by
  induction fuel generalizing c with
  | zero => omega
  | succ fuel ih =>
    by_cases last : c = points.length
    · unfold iterLoop
      rw [last, offset_length, if_pos (Int.le_refl _), List.drop_length]
    · have here : c < points.length := by omega
      have more := offset_lt_length_iff.mpr here
      rw [List.drop_eq_getElem_cons here]
      exact iterLoop_step (by omega) (look_offset here) (ucharOfInt_val _) (next_offset here)
        (ih (by omega) (by omega))

/-- `iter` sees the code points of a text in order. -/
theorem iter_encode (points : List CodePoint) : iter (encode points) = .ok points := by
  have enough := length_le_encode points
  exact iterLoop_offset (Nat.zero_le _) (by omega)

theorem width_of_shape {head : Nat} {tail : List Nat} (shape : Shape head tail) :
    width head = .ok (tail.length + 1) := by
  have range := shape.range
  rw [shape.length]
  unfold width extra
  split_ifs <;> first | omega | rfl

theorem lengthAux_offset {c fuel : Nat} (inside : c ≤ points.length)
    (enough : points.length - c < fuel) :
    lengthAux (encode points) fuel c (offset points c) = .ok (points.length : Int) := by
  induction fuel generalizing c with
  | zero => omega
  | succ fuel ih =>
    by_cases last : c = points.length
    · rw [last, lengthAux, offset_length, List.getElem?_eq_none (Nat.le_refl _)]
    · have here : c < points.length := by omega
      obtain ⟨head, tail, form, shape, -⟩ := addUchar_shape points[c]
      have read : (encode points)[offset points c]? = some head := by
        have character := getElem?_character (encode (points.take c)) points[c]
          (encode (points.drop (c + 1))) (addUchar_length_pos points[c])
        rw [← encode_split here, Nat.add_zero, form] at character
        exact character
      have rest := @ih (c + 1) (by omega) (by omega)
      rw [offset_succ here, form, List.length_cons, Int.natCast_add] at rest
      rw [lengthAux, read]
      simp only [bind, Except.bind, width_of_shape shape]
      exact rest

/-- `length` counts the code points of a text. -/
theorem length_encode (points : List CodePoint) :
    length (encode points) = .ok (points.length : Int) := by
  have enough := length_le_encode points
  exact lengthAux_offset (Nat.zero_le _) (by omega)

theorem encode_injective {a b : List CodePoint} (same : encode a = encode b) : a = b := by
  have left := iter_encode a
  rw [same, iter_encode b] at left
  exact (Except.ok.inj left).symm

end Haxe.Source.UTF8
