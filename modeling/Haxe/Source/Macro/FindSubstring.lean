import Haxe.Source.Macro.EvalStringOffsets
import Haxe.Theory.Occurrence

/-!
# Searching in strings

What the comparison at a boundary finds, and how the searches move on. A comparison that fails
at an ASCII character behind a character of several bytes lets the forward search go on inside
that character: from there one round leads to the next boundary, and the index is one more than
the number of characters passed.
-/

namespace Haxe.Source.EvalString

open UTF8
open Theory

/-- The character at which a comparison with the needle fails. -/
def mismatch : List CodePoint → List CodePoint → Option CodePoint
  | n :: needle, h :: hay => if n = h then mismatch needle hay else some h
  | _, _ => none

/-- The comparison fails at an ASCII character although the first one is none. -/
def slips (needle hay : List CodePoint) : Bool :=
  match hay.head?, mismatch needle hay with
  | some h, some x => decide (0x80 ≤ h.val) && decide (x.val < 0x80)
  | _, _ => false

/-- How often a search over the first `q` characters slips. -/
def drift (needle : List CodePoint) : List CodePoint → Nat → Nat
  | _, 0 => 0
  | [], _ + 1 => 0
  | h :: hay, q + 1 => (if slips needle (h :: hay) then 1 else 0) + drift needle hay q

theorem unsafeGet_append (pre post : List Nat) (n : Nat) :
    unsafeGet (pre ++ n :: post) pre.length = .ok n := by
  unfold unsafeGet
  rw [if_pos (by omega), Int.toNat_natCast, List.getElem?_append_right (Nat.le_refl _)]
  simp

/-- Equal bytes are passed. -/
theorem scan_same (pre bytes post rest : List Nat) (more : rest ≠ []) :
    scan (pre ++ (bytes ++ post)) pre.length (bytes ++ rest) =
      scan (pre ++ (bytes ++ post)) ((pre.length + bytes.length : Nat) : Int) rest := by
  induction bytes generalizing pre with
  | nil => rfl
  | cons b bytes ih =>
    have nonempty : bytes ++ rest ≠ [] := by simp [more]
    have rest' := ih (pre ++ [b])
    simp only [List.append_assoc, List.cons_append, List.nil_append, List.length_append,
      List.length_singleton] at rest'
    rw [List.cons_append, List.cons_append, scan, unsafeGet_append]
    simp only [bind, Except.bind]
    rw [if_pos trivial, if_neg nonempty, List.length_cons, ← Nat.add_assoc,
      Nat.add_right_comm pre.length]
    exact rest'

theorem scan_hit (pre bytes post : List Nat) (nonempty : bytes ≠ []) :
    scan (pre ++ (bytes ++ post)) pre.length bytes = .ok .scanHit := by
  induction bytes generalizing pre with
  | nil => exact absurd rfl nonempty
  | cons b bytes ih =>
    rw [List.cons_append, scan, unsafeGet_append]
    simp only [bind, Except.bind]
    rw [if_pos trivial]
    by_cases last : bytes = []
    · rw [if_pos last]
      rfl
    · rw [if_neg last]
      have rest := ih (pre ++ [b]) last
      simp only [List.append_assoc, List.cons_append, List.nil_append, List.length_append,
        List.length_singleton] at rest
      exact rest

/-- The comparison fails at the first different byte. -/
theorem scan_differs (pre post rest : List Nat) {b n : Nat} (differ : b ≠ n) :
    scan (pre ++ b :: post) pre.length (n :: rest) =
      .ok (if b ≤ 127 then .scanAscii else .scanOther) := by
  rw [scan, unsafeGet_append]
  simp only [bind, Except.bind]
  rw [if_neg differ]
  split <;> rfl

theorem scan_tails {a b : List Nat} (pre post rest : List Nat) (same : a.length = b.length)
    (differ : a ≠ b) (inside : ∀ x ∈ b, 0x80 ≤ x) :
    scan (pre ++ (b ++ post)) pre.length (a ++ rest) = .ok .scanOther := by
  induction b generalizing a pre with
  | nil => exact absurd (List.length_eq_zero_iff.mp same) differ
  | cons y b ih =>
    cases a with
    | nil => cases same
    | cons x a =>
      by_cases heads : x = y
      · subst heads
        have tails : a ≠ b := fun equal => differ (equal ▸ rfl)
        have short : a.length = b.length := Nat.succ.inj same
        have nonempty : a ++ rest ≠ [] := by
          cases a with
          | nil => exact absurd (List.length_eq_zero_iff.mp short.symm).symm tails
          | cons => exact List.cons_ne_nil _ _
        have next := ih (pre ++ [x]) short tails fun z member =>
          inside z (List.mem_cons_of_mem _ member)
        simp only [List.append_assoc, List.cons_append, List.nil_append, List.length_append,
          List.length_singleton] at next
        rw [List.cons_append, List.cons_append, scan, unsafeGet_append]
        simp only [bind, Except.bind]
        rw [if_pos trivial, if_neg nonempty]
        exact next
      · have large := inside y List.mem_cons_self
        rw [List.cons_append, List.cons_append, scan_differs _ _ _ (Ne.symm heads),
          if_neg (by omega)]

theorem addUchar_injective {u v : CodePoint} (same : addUchar u = addUchar v) : u = v := by
  have left := look_boundary [] u []
  have right := look_boundary [] v []
  rw [← same, left] at right
  simp only [Except.ok.injEq, Prod.mk.injEq, Int.natCast_inj] at right
  exact Fin.ext right.1

/-- Two different characters differ in a byte of both. -/
theorem scan_characters (pre post rest : List Nat) {n h : CodePoint} (differ : n ≠ h) :
    scan (pre ++ (addUchar h ++ post)) pre.length (addUchar n ++ rest) =
      .ok (if h.val < 0x80 then .scanAscii else .scanOther) := by
  obtain ⟨head, tail, form, shape, ascii⟩ := addUchar_shape h
  obtain ⟨head', tail', form', shape', -⟩ := addUchar_shape n
  have bytes : head' :: tail' ≠ head :: tail := by
    rw [← form, ← form']
    exact fun same => differ (addUchar_injective same)
  simp only [ascii]
  rw [form, form']
  by_cases heads : head' = head
  · subst heads
    have tails : tail' ≠ tail := fun same => bytes (same ▸ rfl)
    have lengths : tail'.length = tail.length := by rw [shape.length, shape'.length]
    have large : ¬ head' < 0x80 := by
      intro small
      have none : extra head' = 0 := if_pos small
      have empty := List.length_eq_zero_iff.mp (shape.length.trans none)
      have empty' := List.length_eq_zero_iff.mp (shape'.length.trans none)
      exact tails (empty'.trans empty.symm)
    rw [if_neg large]
    refine scan_tails pre post rest (by simp [lengths]) bytes fun x member => ?_
    rcases List.mem_cons.mp member with rfl | inTail
    · omega
    · exact (shape.inside x inTail).1
  · rw [List.cons_append, List.cons_append, scan_differs _ _ _ (Ne.symm heads)]
    congr 1
    split <;> split <;> first | rfl | omega

/-- The comparison at a boundary with enough characters behind it. -/
theorem scan_points {needle hay : List CodePoint} (pre : List Nat) (nonempty : needle ≠ [])
    (enough : needle.length ≤ hay.length) :
    (needle <+: hay ∧ scan (pre ++ encode hay) pre.length (encode needle) = .ok .scanHit) ∨
      ∃ x, mismatch needle hay = some x ∧ ¬ needle <+: hay ∧
        scan (pre ++ encode hay) pre.length (encode needle) =
          .ok (if x.val < 0x80 then .scanAscii else .scanOther) := by
  induction needle generalizing pre hay with
  | nil => exact absurd rfl nonempty
  | cons n needle ih =>
    cases hay with
    | nil => exact absurd enough (by simp)
    | cons h hay =>
      rw [encode_cons, encode_cons]
      by_cases same : n = h
      · subst same
        by_cases last : needle = []
        · subst last
          refine Or.inl ⟨by simp, ?_⟩
          rw [encode_nil, List.append_nil]
          exact scan_hit pre (addUchar n) (encode hay) (addUchar_ne_nil n)
        · have more : encode needle ≠ [] := fun none => last (encode_eq_nil.mp none)
          have rest := @ih hay (pre ++ addUchar n) last (Nat.le_of_succ_le_succ enough)
          rw [List.length_append, List.append_assoc] at rest
          rw [scan_same pre (addUchar n) (encode hay) (encode needle) more]
          simpa [mismatch, List.cons_prefix_cons] using rest
      · refine Or.inr ⟨h, ?_, ?_, scan_characters pre (encode hay) (encode needle) same⟩
        · rw [mismatch, if_neg same]
        · rw [List.cons_prefix_cons]
          exact fun both => same both.1

/-- The comparison inside a character fails at once. -/
theorem scan_inside {needle : List CodePoint} (nonempty : needle ≠ []) {b : Nat} {s : List Nat}
    {i : Nat} (read : s[i]? = some b) (inside : 0x80 ≤ b ∧ b < 0xc0) :
    scan s i (encode needle) = .ok .scanOther := by
  cases needle with
  | nil => exact absurd rfl nonempty
  | cons n needle =>
    obtain ⟨head, tail, form, shape, -⟩ := addUchar_shape n
    have range := shape.range
    have other : b ≠ head := by omega
    have got : unsafeGet s i = .ok b := by
      unfold unsafeGet
      rw [if_pos (by omega), Int.toNat_natCast, read]
    rw [encode_cons, form, List.cons_append, scan, got]
    simp only [bind, Except.bind]
    rw [if_neg other, if_neg (by omega)]
    rfl

variable {hay needle : List CodePoint}

/-- The bytes of a character behind its head, and the boundary behind them. -/
theorem inside_character {c : Nat} (inside : c < hay.length) {k : Nat}
    (above : offset hay c < k) (below : k < offset hay (c + 1)) :
    ∃ b, (encode hay)[k]? = some b ∧ 0x80 ≤ b ∧ b < 0xc0 := by
  obtain ⟨head, tail, form, shape, -⟩ := addUchar_shape hay[c]
  rw [offset_succ inside] at below
  obtain ⟨j, rfl⟩ : ∃ j, k = offset hay c + (j + 1) := ⟨k - offset hay c - 1, by omega⟩
  have short : j < tail.length := by
    rw [form, List.length_cons] at below
    omega
  refine ⟨tail[j], ?_, shape.inside _ (List.getElem_mem short)⟩
  rw [encode_split inside]
  have read := getElem?_character (encode (hay.take c)) hay[c] (encode (hay.drop (c + 1)))
    (k := j + 1) (by rw [form, List.length_cons]; omega)
  rw [form, List.getElem?_cons_succ, List.getElem?_eq_getElem short] at read
  rw [form]
  exact read

theorem head_boundary {c b : Nat} (read : (encode hay)[offset hay c]? = some b) :
    b < 0x80 ∨ 0xc2 ≤ b := by
  have inside : c < hay.length := by
    rw [← offset_lt_length_iff]
    exact (List.getElem?_eq_some_iff.mp read).1
  obtain ⟨head, tail, form, shape, -⟩ := addUchar_shape hay[c]
  rw [encode_split inside, form] at read
  unfold offset at read
  rw [List.getElem?_append_right (Nat.le_refl _), Nat.sub_self] at read
  obtain rfl := Option.some.inj read
  exact shape.range.imp id And.left

/-- A character of several bytes. -/
theorem wide_character {c : Nat} (inside : c < hay.length) :
    if hay[c].val < 0x80 then offset hay (c + 1) = offset hay c + 1
    else offset hay c + 1 < offset hay (c + 1) := by
  obtain ⟨head, tail, form, shape, ascii⟩ := addUchar_shape hay[c]
  have range := shape.range
  have length := shape.length
  rw [offset_succ inside, form, List.length_cons, length]
  unfold extra
  split_ifs <;> omega

/-- `next` and the comparison at the byte behind the head of a character of several bytes. -/
theorem next_inside {c : Nat} (inside : c < hay.length)
    (wide : offset hay c + 1 < offset hay (c + 1)) (nonempty : needle ≠ []) :
    next (encode hay) ((offset hay c : Int) + 1) = .ok (offset hay (c + 1) : Int) ∧
      scan (encode hay) ((offset hay c : Int) + 1) (encode needle) = .ok .scanOther := by
  obtain ⟨b, read, low, high⟩ := inside_character inside (Nat.lt_succ_self _) wide
  have head : searchHead (encode hay) (offset hay c + 2) = offset hay (c + 1) := by
    refine searchHead_inside _ _ _ (fun k above below => ?_) wide fun b read => head_boundary read
    exact inside_character inside (by omega) below
  have place : (offset hay c : Int) + 1 = ((offset hay c + 1 : Nat) : Int) := by omega
  rw [place]
  refine ⟨?_, scan_inside nonempty read ⟨low, high⟩⟩
  unfold next
  rw [charCode_of_getElem? read]
  simp only [bind, Except.bind]
  rw [if_neg (by omega), if_pos high, Int.toNat_natCast, head]
  rfl

open Occurrence

/-- The first occurrence from `p` on with the index that a search starting with index `c` has
there, if that index still leaves room for the needle. -/
def searched (needle hay : List CodePoint) (p c : Nat) : Option (Nat × Nat) :=
  (first needle (hay.drop p)).bind fun q =>
    let index := c + q + drift needle (hay.drop p) q
    if index + needle.length ≤ hay.length then some (index, p + q) else none

theorem searched_end {p c : Nat} (nonempty : needle ≠ []) (beyond : hay.length ≤ p) :
    searched needle hay p c = none := by
  unfold searched
  rw [List.drop_eq_nil_of_le beyond, first, if_neg nonempty]
  rfl

theorem searched_narrow {p c : Nat} (narrow : hay.length < c + needle.length) :
    searched needle hay p c = none := by
  unfold searched
  rw [Option.bind_eq_none_iff]
  intro q _
  exact if_neg (by omega)

theorem searched_here {p c : Nat} (inside : p < hay.length) (occurs : needle <+: hay.drop p)
    (room : c + needle.length ≤ hay.length) : searched needle hay p c = some (c, p) := by
  unfold searched
  rw [List.drop_eq_getElem_cons inside] at occurs ⊢
  rw [first, if_pos occurs]
  simp [drift, room]

/-- Where the needle does not occur the search goes on with the next character. -/
theorem searched_next {p c : Nat} (inside : p < hay.length) (absent : ¬ needle <+: hay.drop p) :
    searched needle hay p c = searched needle hay (p + 1)
      (c + 1 + if slips needle (hay.drop p) then 1 else 0) := by
  unfold searched
  rw [List.drop_eq_getElem_cons inside] at absent ⊢
  rw [first, if_neg absent, Option.bind_map]
  apply Option.bind_congr
  intro q _
  have index : ∀ slip rest : Nat, c + (q + 1) + (slip + rest) = c + 1 + slip + q + rest := by
    omega
  simp only [Function.comp_apply, drift, index]
  rw [show p + (q + 1) = p + 1 + q by omega]

theorem offset_occurrence {p : Nat} (occurs : needle <+: hay.drop p) :
    offset hay (p + needle.length) = offset hay p + (encode needle).length := by
  rw [offset_add]
  unfold offset
  rw [← List.prefix_iff_eq_take.mp occurs]

/-- The forward search, from a boundary whose index is not below the number of characters in
front of it. -/
theorem forwardLoop_eq {this sub : VString} (thisIs : Represents this hay)
    (subIs : Represents sub needle) (nonempty : needle ≠ []) {p c fuel : Nat} (ahead : p ≤ c)
    (upto : p ≤ hay.length) (enough : (encode hay).length + 1 ≤ fuel + offset hay p) :
    forwardLoop this sub fuel c (offset hay p) =
      (searched needle hay p c).elim (.error .notFound) fun r =>
        .ok ((r.1 : Int), (offset hay r.2 : Int), (offset hay (r.2 + needle.length) : Int)) := by
  obtain ⟨thisBytes, thisLength, -, -⟩ := thisIs
  obtain ⟨subBytes, subLength, -, -⟩ := subIs
  have positive := List.length_pos_iff.mpr nonempty
  induction fuel using Nat.strongRecOn generalizing p c with
  | ind fuel ih =>
  obtain ⟨fuel, rfl⟩ : ∃ k, fuel = k + 1 := by
    have := offset_le_length hay p
    exact Nat.exists_eq_add_one.mpr (by omega)
  have atEnd : (offset hay p : Int) ≥ (this.sstring.length : Int) ↔ hay.length ≤ p := by
    rw [thisBytes, ← not_iff_not, Nat.not_le, ← offset_lt_length_iff]
    omega
  rw [forwardLoop]
  by_cases stop : hay.length < c + needle.length ∨ hay.length ≤ p
  · have none : searched needle hay p c = none :=
      stop.elim searched_narrow (searched_end nonempty)
    rw [if_pos (by rw [atEnd]; omega), none]
    rfl
  · rw [not_or] at stop
    have inside : p < hay.length := by omega
    have step : offset hay p < offset hay (p + 1) := offset_lt (Nat.lt_add_one p) inside
    have long : needle.length ≤ (hay.drop p).length := by
      rw [List.length_drop]
      omega
    have text : this.sstring = encode (hay.take p) ++ encode (hay.drop p) := by
      rw [thisBytes, ← encode_append, List.take_append_drop]
    have compared : (needle <+: hay.drop p ∧
          scan this.sstring (offset hay p) sub.sstring = .ok .scanHit) ∨
        ∃ x, mismatch needle (hay.drop p) = some x ∧ ¬ needle <+: hay.drop p ∧
          scan this.sstring (offset hay p) sub.sstring =
            .ok (if x.val < 0x80 then .scanAscii else .scanOther) := by
      rw [text, subBytes]
      exact scan_points (encode (hay.take p)) nonempty long
    rw [if_neg (by rw [atEnd]; omega)]
    rcases compared with ⟨occurs, hit⟩ | ⟨x, differs, absent, failed⟩
    · rw [hit, searched_here inside occurs (by omega), Option.elim_some,
        offset_occurrence occurs, subBytes]
      simp only [bind, Except.bind, pure, Except.pure]
      rfl
    · have wide := wide_character inside
      have slip : slips needle (hay.drop p) =
          (decide (0x80 ≤ hay[p].val) && decide (x.val < 0x80)) := by
        unfold slips
        rw [differs, List.drop_eq_getElem_cons inside]
        rfl
      rw [failed, searched_next inside absent, slip]
      by_cases ascii : x.val < 0x80
      · rw [if_pos ascii]
        simp only [bind, Except.bind]
        by_cases single : hay[p].val < 0x80
        · rw [if_pos single] at wide
          have place : (offset hay p : Int) + 1 = (offset hay (p + 1) : Int) := by omega
          rw [place]
          have rest := @ih fuel (by omega) (p + 1) (c + 1) (by omega) (by omega) (by omega)
          rw [if_neg (by simp; omega)]
          exact rest
        · -- one round inside the character
          rw [if_neg single] at wide
          rw [if_pos (by simp [ascii]; omega)]
          obtain ⟨fuel, rfl⟩ : ∃ k, fuel = k + 1 := by
            have := offset_le_length hay (p + 1)
            exact Nat.exists_eq_add_one.mpr (by omega)
          have upto' := offset_le_length hay (p + 1)
          rw [forwardLoop]
          by_cases narrow : hay.length < c + 1 + needle.length
          · rw [if_pos (by omega), searched_narrow (by omega)]
            rfl
          · obtain ⟨behind, compared⟩ := next_inside inside wide nonempty
            rw [if_neg (by rw [thisBytes]; omega), thisBytes, subBytes, compared]
            simp only [bind, Except.bind]
            rw [behind]
            have rest := @ih fuel (by omega) (p + 1) (c + 2) (by omega) (by omega) (by omega)
            exact rest
      · rw [if_neg ascii]
        simp only [bind, Except.bind, thisBytes, next_offset inside]
        rw [if_neg (by simp; omega)]
        exact @ih fuel (by omega) (p + 1) (c + 1) (by omega) (by omega) (by omega)

/-- The backward search, from a boundary behind which the needle has room. -/
theorem reverseLoop_eq {this sub : VString} (thisIs : Represents this hay)
    (subIs : Represents sub needle) (nonempty : needle ≠ []) {p fuel : Nat}
    (room : p + needle.length ≤ hay.length) (enough : p + 1 < fuel) :
    reverseLoop this sub fuel p (offset hay p) =
      (lastUpTo needle hay p).elim (.error .notFound) fun r =>
        .ok ((r : Int), (offset hay r : Int), (offset hay (r + needle.length) : Int)) := by
  have thisLength := thisIs.length
  have subLength := subIs.length
  have thisBytes := thisIs.bytes
  have subBytes := subIs.bytes
  have positive := List.length_pos_iff.mpr nonempty
  induction p generalizing fuel with
  | zero =>
    obtain ⟨fuel, rfl⟩ : ∃ k, fuel = k + 2 := ⟨fuel - 2, by omega⟩
    have compared := @scan_points needle hay [] nonempty (by omega)
    rw [List.nil_append, ← thisBytes, ← subBytes] at compared
    rw [reverseLoop, if_neg (by rw [offset_zero]; omega)]
    unfold lastUpTo
    rcases compared with ⟨occurs, hit⟩ | ⟨x, -, absent, failed⟩
    · have here := offset_occurrence (p := 0) occurs
      change scan this.sstring (offset hay 0) sub.sstring = _ at hit
      rw [hit, if_pos occurs, Option.elim_some, here, subBytes]
      simp only [bind, Except.bind, pure, Except.pure]
      rfl
    · change scan this.sstring (offset hay 0) sub.sstring = _ at failed
      rw [failed, if_neg absent]
      have back : prev this.sstring (offset hay 0) = .ok (-1) := prev_start _
      have stop : reverseLoop this sub (fuel + 1) (((0 : Nat) : Int) - 1) (-1) =
          .error .notFound := by
        rw [reverseLoop, if_pos (by omega)]
      split <;> simp only [bind, Except.bind, back, stop] <;> rfl
  | succ p ih =>
    obtain ⟨fuel, rfl⟩ : ∃ k, fuel = k + 1 := ⟨fuel - 1, by omega⟩
    have long : needle.length ≤ (hay.drop (p + 1)).length := by
      rw [List.length_drop]
      omega
    have text : this.sstring = encode (hay.take (p + 1)) ++ encode (hay.drop (p + 1)) := by
      rw [thisBytes, ← encode_append, List.take_append_drop]
    have compared : (needle <+: hay.drop (p + 1) ∧
          scan this.sstring (offset hay (p + 1)) sub.sstring = .ok .scanHit) ∨
        ∃ x, mismatch needle (hay.drop (p + 1)) = some x ∧ ¬ needle <+: hay.drop (p + 1) ∧
          scan this.sstring (offset hay (p + 1)) sub.sstring =
            .ok (if x.val < 0x80 then .scanAscii else .scanOther) := by
      rw [text, subBytes]
      exact scan_points (encode (hay.take (p + 1))) nonempty long
    rw [reverseLoop, if_neg (by omega)]
    unfold lastUpTo
    rcases compared with ⟨occurs, hit⟩ | ⟨x, -, absent, failed⟩
    · rw [hit, if_pos occurs, Option.elim_some, offset_occurrence occurs, subBytes]
      simp only [bind, Except.bind, pure, Except.pure]
      rfl
    · rw [failed, if_neg absent, ← @ih fuel (by omega) (by omega)]
      have back : prev this.sstring (offset hay (p + 1)) = .ok (offset hay p : Int) := by
        rw [thisBytes]
        exact prev_offset (by omega)
      have index : ((p + 1 : Nat) : Int) - 1 = p := by omega
      split <;> simp only [bind, Except.bind, back, index]

/-- `find_substring` forwards from a boundary. -/
theorem findSubstring_forward {this sub : VString} (thisIs : Represents this hay)
    (subIs : Represents sub needle) (nonempty : needle ≠ []) {p c : Nat} (ahead : p ≤ c)
    (upto : p ≤ hay.length) :
    findSubstring this sub false c (offset hay p) =
      (searched needle hay p c).elim (.error .notFound) fun r =>
        .ok ((r.1 : Int), (offset hay r.2 : Int), (offset hay (r.2 + needle.length) : Int)) := by
  refine forwardLoop_eq thisIs subIs nonempty ahead upto ?_
  rw [thisIs.bytes]
  omega

end Haxe.Source.EvalString
