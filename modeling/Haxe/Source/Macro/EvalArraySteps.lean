import Haxe.Source.Macro.EvalArray

/-!
# One operation on an array

Each operation succeeds on the arrays that represent a sequence, and does to the sequence
what it is for. Only writing behind the end looks at old values in the buffer.
-/

namespace Haxe.Source.Macro.EvalArray

open Theory

variable {α : Type} {R : Runtime α} {a : VArray α} {l : List α}

theorem grown_ok (h : Refines a l) {off : Nat} (small : off ≤ 1) :
    ∃ r, grown R a off = .ok r ∧ l.length + 2 ≤ r.length ∧
      ∀ i, i < l.length → r[off + i]? = l[i]? := by
  have room : off + l.length ≤ (make R (a.capacity * 2 + 5)).length := by
    have := h.bounded
    simp only [make, List.length_replicate, VArray.capacity]
    omega
  obtain ⟨r, copied, length, values⟩ :=
    @Blit.blit_ok _ a.avalues (make R (a.capacity * 2 + 5)) 0 off l.length
      (by simpa using h.bounded) room
  refine ⟨r, by simpa [grown, h.length] using copied, ?_, fun i inside => ?_⟩
  · have := h.bounded
    simp only [length, make, List.length_replicate, VArray.capacity]
    omega
  · rw [values, if_pos (by omega), ← h.values i inside]
    congr 1
    omega

theorem withRoom_ok (h : Refines a l) :
    ∃ r, withRoom R a = .ok r ∧ l.length + 1 ≤ r.length ∧ ∀ i, i < l.length → r[i]? = l[i]? := by
  unfold withRoom
  split
  · obtain ⟨r, made, room, values⟩ := @grown_ok α R a l h 0 (by omega)
    exact ⟨r, made, by omega, by simpa using values⟩
  · next space =>
    rw [h.length, VArray.capacity] at space
    exact ⟨a.avalues, rfl, by omega, h.values⟩

theorem shifted_ok (h : Refines a l) :
    ∃ r, shifted R a = .ok r ∧ l.length + 1 ≤ r.length ∧
      ∀ i, i < l.length → r[i + 1]? = l[i]? := by
  unfold shifted
  split
  · obtain ⟨r, made, room, values⟩ := @grown_ok α R a l h 1 (by omega)
    refine ⟨r, made, by omega, fun i inside => ?_⟩
    rw [Nat.add_comm i 1]
    exact values i inside
  · next space =>
    rw [h.length, VArray.capacity] at space
    obtain ⟨r, copied, length, values⟩ :=
      @Blit.blit_ok _ a.avalues a.avalues 0 1 l.length (by omega) (by omega)
    refine ⟨r, by simpa [h.length] using copied, by omega, fun i inside => ?_⟩
    rw [values, if_pos (by omega), ← h.values i inside]
    congr 1
    omega

theorem push_refines (h : Refines a l) (v : α) :
    ∃ a', push R a v = .ok (a', l.length + 1) ∧ Refines a' (l ++ [v]) := by
  obtain ⟨r, made, room, values⟩ := @withRoom_ok α R a l h
  refine ⟨⟨r.set l.length v, l.length + 1⟩, ?_, by simp, fun i inside => ?_⟩
  · simp only [push, made, h.length, bind, Except.bind,
      Blit.set_ok (show l.length < r.length by omega), pure, Except.pure]
  · rw [List.length_append, List.length_singleton] at inside
    by_cases old : i < l.length
    · rw [List.getElem?_set_ne (by omega), values i old, List.getElem?_append_left old]
    · obtain rfl : i = l.length := by omega
      rw [List.getElem?_set_self (by omega), List.getElem?_concat_length]

theorem get_refines (h : Refines a l) (i : Int) : get R a i = Sequence.get R l i := by
  unfold get Sequence.get
  rw [h.length]
  by_cases negative : i < 0
  · simp [negative]
  · by_cases inside : i.toNat < l.length
    · have within : ¬ i ≥ l.length := by omega
      simp [negative, within, List.getD_eq_getElem?_getD, h.values _ inside]
    · have beyond : i ≥ l.length := by omega
      simp [negative, beyond, List.getD_eq_getElem?_getD, Nat.not_lt.mp inside]

theorem pop_refines (h : Refines a l) :
    ∃ a', pop R a = .ok (a', Sequence.get R l (l.length - 1)) ∧ Refines a' l.dropLast := by
  by_cases empty : l.length = 0
  · obtain rfl := List.eq_nil_of_length_eq_zero empty
    exact ⟨a, by simp [pop, h.length, Sequence.get, pure, Except.pure], h⟩
  · have last : l.length - 1 < a.avalues.length := by
      have := h.bounded
      omega
    have cleared := Blit.set_ok last R.vnull
    rw [show ((l.length - 1 : Nat) : Int) = l.length - 1 by omega] at cleared
    refine ⟨⟨a.avalues.set (l.length - 1) R.vnull, l.length - 1⟩, ?_, by simp, fun i inside => ?_⟩
    · simp [pop, h.length, empty, cleared, get_refines h, bind, Except.bind, pure, Except.pure]
    · rw [List.length_dropLast] at inside
      rw [List.getElem?_set_ne (by omega), h.values i (by omega), List.getElem?_dropLast]
      simp [inside]

theorem shift_refines (h : Refines a l) :
    ∃ a', shift R a = .ok (a', Sequence.get R l 0) ∧ Refines a' l.tail := by
  by_cases empty : l.length = 0
  · obtain rfl := List.eq_nil_of_length_eq_zero empty
    exact ⟨a, by simp [shift, h.length, Sequence.get, pure, Except.pure], h⟩
  · have bounded := h.bounded
    obtain ⟨r, copied, length, values⟩ :=
      @Blit.blit_ok _ a.avalues a.avalues 1 0 (l.length - 1) (by omega) (by omega)
    rw [show ((l.length - 1 : Nat) : Int) = l.length - 1 by omega] at copied
    refine ⟨⟨r, l.length - 1⟩, ?_, by simp, fun i inside => ?_⟩
    · simp only [Int.natCast_one, Int.natCast_zero] at copied
      simp [shift, h.length, empty, get_refines h, bind, Except.bind, copied, pure, Except.pure]
    · rw [List.length_tail] at inside
      rw [values, if_pos (by omega), h.values _ (by omega), List.getElem?_tail]
      congr 1
      omega

theorem unshift_refines (h : Refines a l) (v : α) :
    ∃ a', unshift R a v = .ok a' ∧ Refines a' (v :: l) := by
  obtain ⟨r, made, room, values⟩ := @shifted_ok α R a l h
  have put := Blit.set_ok (show 0 < r.length by omega) v
  refine ⟨⟨r.set 0 v, l.length + 1⟩, ?_, by simp, fun i inside => ?_⟩
  · simp only [Int.natCast_zero] at put
    simp [unshift, made, h.length, bind, Except.bind, put, pure, Except.pure]
  · cases i with
    | zero => rw [List.getElem?_set_self (by omega), List.getElem?_cons_zero]
    | succ i =>
      rw [List.length_cons] at inside
      rw [List.getElem?_set_ne (by omega), List.getElem?_cons_succ]
      exact values i (by omega)

theorem fromEnd_nonneg (length : Nat) (pos : Int) : 0 ≤ fromEnd length pos := by
  unfold fromEnd
  grind

theorem fromEnd_le {length : Nat} {pos : Int} (h : pos ≤ length) : fromEnd length pos ≤ length := by
  unfold fromEnd
  grind

/-- The index that a position means. -/
theorem fromEnd_eq {length : Nat} {pos : Int} (h : pos ≤ length) :
    ∃ p : Nat, fromEnd length pos = p ∧ p ≤ length := by
  refine ⟨(fromEnd length pos).toNat, ?_, ?_⟩
  · have := fromEnd_nonneg length pos
    omega
  · have := fromEnd_le h
    omega

theorem getElem?_inserted {p i : Nat} (inside : p ≤ l.length) (x : α) :
    (l.take p ++ x :: l.drop p)[i]? =
      if i < p then l[i]? else if i = p then some x else l[i - 1]? := by
  rw [List.getElem?_append, List.length_take, Nat.min_eq_left inside, List.getElem?_take]
  split
  · rfl
  · split
    · next same => simp [same]
    · next notBefore differ =>
      obtain ⟨k, rfl⟩ : ∃ k, i = p + (k + 1) := ⟨i - p - 1, by omega⟩
      rw [Nat.add_sub_cancel_left, List.getElem?_cons_succ, List.getElem?_drop]
      congr 1

theorem insert_refines (h : Refines a l) {p : Nat} (inside : p ≤ l.length) (x : α) :
    ∃ a', insert R a p x = .ok a' ∧ Refines a' (l.take p ++ x :: l.drop p) := by
  obtain ⟨r, made, room, values⟩ := @withRoom_ok α R a l h
  obtain ⟨r', copied, length, moved⟩ :=
    @Blit.blit_ok _ r r p (p + 1) (l.length - p) (by omega) (by omega)
  rw [show ((l.length - p : Nat) : Int) = l.length - p by omega] at copied
  have put := Blit.set_ok (show p < r'.length by omega) x
  refine ⟨⟨r'.set p x, l.length + 1⟩, ?_, ?_, fun i bound => ?_⟩
  · simp only [Int.natCast_add, Int.natCast_one] at copied
    simp [insert, made, h.length, bind, Except.bind, copied, put, pure, Except.pure]
  · simp
    omega
  · rw [getElem?_inserted inside]
    have total : i < l.length + 1 := by
      simp at bound
      omega
    by_cases before : i < p
    · rw [List.getElem?_set_ne (by omega), moved, if_neg (by omega), values i (by omega),
        if_pos before]
    · by_cases same : i = p
      · subst same
        rw [List.getElem?_set_self (by omega), if_neg before, if_pos rfl]
      · rw [List.getElem?_set_ne (by omega), moved, if_pos (by omega), if_neg before, if_neg same,
          values _ (by omega)]
        congr 1
        omega

theorem stdInsert_refines (h : Refines a l) (pos : Int) (x : α) :
    ∃ a', StdArray.insert R a pos x = .ok a' ∧ Refines a' (Sequence.insert l pos x) := by
  unfold StdArray.insert Sequence.insert
  rw [h.length]
  by_cases beyond : pos ≥ l.length
  · obtain ⟨a', pushed, refines⟩ := @push_refines α R a l h x
    have last : fromEnd l.length pos = pos := by
      unfold fromEnd
      grind
    refine ⟨a', by simp [beyond, pushed, bind, Except.bind, pure, Except.pure], ?_⟩
    dsimp only
    rw [last, List.take_of_length_le (by omega), List.drop_of_length_le (by omega)]
    exact refines
  · obtain ⟨p, same, inside⟩ := @fromEnd_eq l.length pos (by omega)
    rw [if_neg beyond, same]
    exact insert_refines h inside x

/-- The buffer without `len` values at `p`. -/
theorem cut_ok (h : Refines a l) {p len : Nat} (inside : p + len ≤ l.length) :
    ∃ r, Blit.blit a.avalues (p + len : Nat) a.avalues p (l.length - (p + len) : Nat) = .ok r ∧
      Refines ⟨r, l.length - len⟩ (l.take p ++ l.drop (p + len)) := by
  have bounded := h.bounded
  obtain ⟨r, copied, length, values⟩ :=
    @Blit.blit_ok _ a.avalues a.avalues (p + len) p (l.length - (p + len)) (by omega) (by omega)
  refine ⟨r, copied, by simp; omega, fun i bound => ?_⟩
  have total : i < l.length - len := by
    simp at bound
    omega
  rw [values, List.getElem?_append, List.length_take, Nat.min_eq_left (by omega),
    List.getElem?_take, List.getElem?_drop]
  by_cases before : i < p
  · rw [if_neg (by omega), if_pos before, if_pos before, h.values i (by omega)]
  · rw [if_pos (by omega), if_neg before, h.values _ (by omega)]

theorem indexOf_eq (h : Refines a l) (x : α) : indexOf R a x 0 = l.findIdx? (R.equals x) := by
  unfold indexOf
  rw [h.length, h.live]
  simp

theorem remove_refines (h : Refines a l) (x : α) :
    ∃ a', remove R a x = .ok (a', (l.findIdx? (R.equals x)).isSome) ∧
      Refines a' (Sequence.remove R l x) := by
  unfold remove Sequence.remove
  rw [indexOf_eq h]
  cases found : l.findIdx? (R.equals x) with
  | none =>
    refine ⟨a, rfl, ?_⟩
    rw [List.eraseP_of_forall_not]
    · exact h
    · intro y member
      simpa using List.findIdx?_eq_none_iff.mp found y member
  | some p =>
    have inside : p < l.length := (List.findIdx?_eq_some_iff_getElem.mp found).1
    obtain ⟨r, copied, refines⟩ := @cut_ok α a l h p 1 (by omega)
    refine ⟨⟨r, l.length - 1⟩, ?_, ?_⟩
    · rw [show ((l.length - (p + 1) : Nat) : Int) = l.length - p - 1 by omega] at copied
      simp only [Int.natCast_add, Int.natCast_one] at copied
      simp [copied, h.length, bind, Except.bind, pure, Except.pure]
    · rw [List.eraseP_eq_eraseIdx, found]
      dsimp only
      rw [List.eraseIdx_eq_take_drop_succ]
      exact refines

/-- The values that `splice` takes out. -/
theorem taken_ok (h : Refines a l) {p len : Nat} (inside : p + len ≤ l.length) :
    (List.range len).mapM (fun (i : Nat) => Blit.get a.avalues ((p : Int) + i)) =
      .ok ((l.drop p).take len) := by
  induction len with
  | zero => rfl
  | succ len ih =>
    have last : l[p + len]? = some (getElem l (p + len) (by omega)) := List.getElem?_eq_getElem _
    have read : Blit.get a.avalues ((p : Int) + len) = .ok (getElem l (p + len) (by omega)) := by
      rw [← Int.natCast_add]
      exact Blit.get_ok ((h.values _ (by omega)).trans last)
    rw [List.range_succ, List.mapM_append, ih (by omega), List.take_add_one, List.getElem?_drop,
      last]
    simp [read, bind, Except.bind, pure, Except.pure]

theorem splice_refines (h : Refines a l) {p len : Nat} (inside : p + len ≤ l.length) :
    ∃ a', splice a p len (p + len : Nat) = .ok (a', create ((l.drop p).take len)) ∧
      Refines a' (l.take p ++ l.drop (p + len)) := by
  obtain ⟨r, copied, refines⟩ := cut_ok h inside
  refine ⟨⟨r, l.length - len⟩, ?_, refines⟩
  rw [show ((l.length - (p + len) : Nat) : Int) = l.length - (p + len : Nat) by omega] at copied
  simp only [Int.natCast_add] at copied
  simp [splice, taken_ok h inside, copied, h.length, bind, Except.bind, pure, Except.pure]

theorem stdSplice_refines (h : Refines a l) (pos len : Int) :
    ∃ a', StdArray.splice a pos len = .ok (a', create (Sequence.splice l pos len).2) ∧
      Refines a' (Sequence.splice l pos len).1 := by
  unfold StdArray.splice Sequence.splice
  rw [h.length]
  by_cases nothing : len < 0 ∨ pos > l.length
  · rw [if_pos nothing, if_pos nothing]
    exact ⟨a, rfl, h⟩
  · obtain ⟨p, same, inside⟩ := @fromEnd_eq l.length pos (by omega)
    rw [if_neg nothing, if_neg nothing]
    dsimp only
    rw [same]
    by_cases more : len > (l.length : Int) - p
    · obtain ⟨a', spliced, refines⟩ := @splice_refines α a l h p (l.length - p) (by omega)
      refine ⟨a', ?_, ?_⟩
      · rw [if_pos more, List.take_of_length_le (by simp; omega), Int.toNat_natCast,
          show ((l.length : Int) - p).toNat = l.length - p by omega,
          show (p : Int) + (l.length - p) = (p + (l.length - p) : Nat) by omega]
        rwa [List.take_of_length_le (by simp)] at spliced
      · rw [List.drop_of_length_le (by omega)] at refines ⊢
        exact refines
    · obtain ⟨n, rfl⟩ : ∃ n : Nat, len = n := ⟨len.toNat, by omega⟩
      rw [if_neg more]
      exact splice_refines h (by omega)

theorem slice_refines (h : Refines a l) (pos : Int) (end' : Option Int) :
    ∃ a', StdArray.slice a pos end' = .ok a' ∧ Refines a' (Sequence.slice l pos end') := by
  unfold StdArray.slice Sequence.slice slice
  rw [h.length]
  dsimp only
  generalize end'.getD l.length = e
  obtain ⟨q, sameEnd, insideEnd⟩ :=
    @fromEnd_eq l.length (if e > l.length then (l.length : Int) else e) (by split <;> omega)
  have cut : l.take (fromEnd l.length e).toNat = l.take q := by
    split at sameEnd
    · have all : l.length ≤ (fromEnd l.length e).toNat := by
        unfold fromEnd
        grind
      have whole : q = l.length := by
        unfold fromEnd at sameEnd
        grind
      rw [List.take_of_length_le all, List.take_of_length_le (by omega)]
    · rw [sameEnd, Int.toNat_natCast]
  have nonneg := fromEnd_nonneg l.length pos
  obtain ⟨p, samePos⟩ : ∃ p : Nat, fromEnd l.length pos = p :=
    ⟨(fromEnd l.length pos).toNat, by omega⟩
  rw [cut, sameEnd, samePos, Int.toNat_natCast]
  by_cases empty : (p : Int) > l.length ∨ (p : Int) ≥ q
  · rw [if_pos empty, List.drop_of_length_le (by rw [List.length_take]; omega)]
    exact ⟨create [], rfl, Refines.create []⟩
  · have bounded := h.bounded
    have read := @Blit.sub_ok _ a.avalues p (q - p) (by omega)
    rw [show ((q - p : Nat) : Int) = q - p by omega] at read
    refine ⟨create ((a.avalues.drop p).take (q - p)), ?_, ?_⟩
    · rw [if_neg empty]
      simp [read, bind, Except.bind, pure, Except.pure]
    · rw [← List.drop_take, ← h.live, List.take_take, Nat.min_eq_left insideEnd]
      exact Refines.create _

theorem concat_refines {a2 : VArray α} {l2 : List α} (h : Refines a l) (h2 : Refines a2 l2) :
    ∃ a', concat R a a2 = .ok a' ∧ Refines a' (l ++ l2) := by
  obtain ⟨r, copied, length, values⟩ :=
    @Blit.blit_ok _ a.avalues (make R (l.length + l2.length)) 0 0 l.length
      (by simpa using h.bounded) (by simp [make])
  have total : r.length = l.length + l2.length := by simpa [make] using length
  obtain ⟨r', copied', length', values'⟩ :=
    @Blit.blit_ok _ a2.avalues r 0 l.length l2.length (by simpa using h2.bounded) (by omega)
  simp only [Int.natCast_zero] at copied copied'
  refine ⟨create r', ?_, by simp [create, length', total], fun i inside => ?_⟩
  · simp [concat, h.length, h2.length, copied, copied', bind, Except.bind, pure, Except.pure]
  · rw [List.length_append] at inside
    simp only [create]
    rw [values', List.getElem?_append]
    by_cases first : i < l.length
    · rw [if_neg (by omega), if_pos first, values, if_pos (by omega), ← h.values i first]
      congr 1
      omega
    · rw [if_pos (by omega), if_neg first, ← h2.values _ (by omega)]
      congr 1
      omega

theorem copy_refines (h : Refines a l) : copy a = .ok (create l) := by
  simp [copy, h.sub, bind, Except.bind, pure, Except.pure]

theorem reverse_refines (h : Refines a l) :
    ∃ a', reverse a = .ok a' ∧ Refines a' l.reverse :=
  ⟨⟨l.reverse, a.alength⟩, by simp [reverse, h.sub, bind, Except.bind, pure, Except.pure],
    by simp [h.length], fun _ _ => rfl⟩

theorem sort_refines (h : Refines a l) (f : α → α → Int) :
    ∃ a', sort R a f = .ok a' ∧ Refines a' (R.sort f l) :=
  ⟨⟨R.sort f l, a.alength⟩, by simp [sort, h.sub, bind, Except.bind, pure, Except.pure],
    by rw [h.length, (R.sort_perm f l).length_eq], fun _ _ => rfl⟩

/-- If `i` is in the buffer, the positions from the end up to it hold no old value. -/
def VArray.ClearUpTo (R : Runtime α) (a : VArray α) (i : Nat) : Prop :=
  i < a.capacity → ∀ j, a.alength ≤ j → j < i → a.avalues[j]? = some R.vnull

theorem getElem?_sequenceSet {i j : Nat} (beyond : l.length ≤ i) (inside : j ≤ i) (v : α) :
    (Sequence.set R l i v)[j]? =
      if j = i then some v else if j < l.length then l[j]? else some R.vnull := by
  have length : (l ++ List.replicate (i + 1 - l.length) R.vnull).length = i + 1 := by
    rw [List.length_append, List.length_replicate]
    omega
  unfold Sequence.set Sequence.fill
  split
  · next same =>
    subst same
    rw [List.getElem?_set_self (by omega)]
  · next differ =>
    rw [List.getElem?_set_ne (Ne.symm differ), List.getElem?_append]
    split
    · rfl
    · rw [List.getElem?_replicate, if_pos (by omega)]

theorem length_sequenceSet (i : Nat) (v : α) :
    (Sequence.set R l i v).length = max (i + 1) l.length := by
  unfold Sequence.set Sequence.fill
  rw [List.length_set, List.length_append, List.length_replicate]
  omega

/-- The buffer of `set`, for an index behind the end. -/
theorem reaching_ok (h : Refines a l) {i : Nat} (beyond : l.length ≤ i) :
    ∃ r, reaching R a i = .ok r ∧ i < r.length ∧ (∀ j, j < l.length → r[j]? = l[j]?) ∧
      ((∀ j, l.length ≤ j → j < i → r[j]? = some R.vnull) ↔ a.ClearUpTo R i) := by
  unfold reaching VArray.ClearUpTo
  rw [h.length]
  split
  · next outside =>
    have size : (make R (max (i + 5) (a.capacity * 2 + 5))).length =
        max (i + 5) (a.capacity * 2 + 5) := List.length_replicate
    obtain ⟨r, copied, length, values⟩ :=
      @Blit.blit_ok _ a.avalues (make R (max (i + 5) (a.capacity * 2 + 5))) 0 0 l.length
        (by simpa using h.bounded) (by omega)
    refine ⟨r, copied, by omega, fun j inside => ?_, fun _ within => by omega, fun _ => ?_⟩
    · rw [values, if_pos (by omega), ← h.values j inside]
      congr 1
      omega
    · intro j old new
      rw [values, if_neg (by omega), make, List.getElem?_replicate, if_pos (by omega)]
  · next within =>
    have room : i < a.avalues.length := by
      unfold VArray.capacity at within
      omega
    exact ⟨a.avalues, rfl, room, h.values, fun clear _ => clear, fun clear => clear room⟩

/-- Writing is right exactly where it uncovers no old value. -/
theorem set_refines (h : Refines a l) (i : Nat) (v : α) :
    ∃ a', set R a i v = .ok a' ∧ (Refines a' (Sequence.set R l i v) ↔ a.ClearUpTo R i) := by
  unfold set
  rw [h.length]
  by_cases beyond : i ≥ l.length
  · obtain ⟨r, made, room, values, clear⟩ := @reaching_ok α R a l h i beyond
    have size : (Sequence.set R l i v).length = i + 1 := by
      rw [length_sequenceSet]
      omega
    refine ⟨⟨r.set i v, i + 1⟩, by simp [beyond, made, bind, Except.bind, pure, Except.pure], ?_⟩
    rw [← clear]
    constructor
    · intro refines j old new
      have same := refines.values j (by omega)
      rw [getElem?_sequenceSet beyond (by omega), if_neg (by omega), if_neg (by omega)] at same
      rwa [List.getElem?_set_ne (by omega)] at same
    · refine fun clean => ⟨size.symm, fun j inside => ?_⟩
      rw [getElem?_sequenceSet beyond (by omega)]
      dsimp only
      by_cases same : j = i
      · rw [if_pos same, same, List.getElem?_set_self room]
      · rw [if_neg same, List.getElem?_set_ne (Ne.symm same)]
        by_cases old : j < l.length
        · rw [if_pos old, values j old]
        · rw [if_neg old, clean j (by omega) (by omega)]
  · refine ⟨⟨a.avalues.set i v, a.alength⟩,
      by simp [beyond, h.length, pure, Except.pure], fun _ _ j old new => ?_, fun _ => ?_⟩
    · have := h.length
      omega
    · have filled : Sequence.set R l i v = l.set i v := by
        unfold Sequence.set Sequence.fill
        rw [show i + 1 - l.length = 0 by omega]
        simp
      rw [filled]
      refine ⟨by simp [h.length], fun j inside => ?_⟩
      rw [List.length_set] at inside
      rw [List.getElem?_set, List.getElem?_set, h.values j inside]
      have := h.bounded
      simp only [show i < a.avalues.length by omega, show i < l.length by omega]

/-- Growing writes `null` behind the end. -/
theorem resize_grows {n : Nat} (more : l.length < n) :
    Sequence.resize R l n = .ok (Sequence.set R l (n - 1) R.vnull) := by
  unfold Sequence.resize
  rw [if_neg (by omega), Int.toNat_natCast]
  congr 1
  unfold Sequence.set Sequence.fill
  have size : (l ++ List.replicate (n - l.length) R.vnull).length = n := by
    rw [List.length_append, List.length_replicate]
    omega
  rw [show n - 1 + 1 = n by omega, List.take_of_length_le (by omega)]
  refine List.ext_getElem? fun j => ?_
  rw [List.getElem?_set]
  split
  · next same =>
    subst same
    rw [if_pos (by omega), List.getElem?_append_right (by omega), List.getElem?_replicate,
      if_pos (by omega)]
  · rfl

/-- Resizing is right exactly where it uncovers no old value, and fails for a negative
length only. -/
theorem resize_refines (h : Refines a l) (n : Int) :
    (n < 0 ∧ resize R a n = .error ⟨"get"⟩ ∧ Sequence.resize R l n = .error ⟨"get"⟩) ∨
    ∃ a' l', resize R a n = .ok a' ∧ Sequence.resize R l n = .ok l' ∧
      (Refines a' l' ↔ (a.alength < n → a.ClearUpTo R (n - 1).toNat)) := by
  by_cases negative : n < 0
  · left
    obtain ⟨k, count⟩ : ∃ k, ((a.alength : Int) - n).toNat = k + 1 :=
      ⟨((a.alength : Int) - n).toNat - 1, by omega⟩
    have outside : Blit.get a.avalues (n + (0 : Nat)) = .error ⟨"get"⟩ := by
      rw [Blit.get, if_neg (by omega)]
    refine ⟨negative, ?_, by simp [Sequence.resize, negative]⟩
    unfold resize
    rw [if_neg (by omega), if_pos (by omega)]
    unfold splice
    rw [count, List.range_succ_eq_map, List.mapM_cons, outside]
    rfl
  · right
    obtain ⟨m, rfl⟩ : ∃ m : Nat, n = m := ⟨n.toNat, by omega⟩
    have length := h.length
    by_cases more : l.length < m
    · obtain ⟨a', written, refines⟩ := @set_refines α R a l h (m - 1) R.vnull
      rw [show m - 1 = ((m : Int) - 1).toNat by omega] at written
      refine ⟨a', _, by rw [resize, if_pos (by omega), written], resize_grows more, ?_⟩
      rw [refines, show ((m : Int) - 1).toNat = m - 1 by omega]
      exact ⟨fun clear _ => clear, fun clear => clear (by omega)⟩
    · have short : Sequence.resize R l m = .ok (l.take m) := by
        unfold Sequence.resize Sequence.fill
        rw [if_neg (by omega), Int.toNat_natCast, show m - l.length = 0 by omega]
        simp
      by_cases fewer : m < l.length
      · obtain ⟨a', spliced, refines⟩ := @splice_refines α a l h m (l.length - m) (by omega)
        rw [show m + (l.length - m) = l.length by omega, List.drop_length, List.append_nil]
          at refines
        refine ⟨a', l.take m, ?_, short, fun _ less => by omega, fun _ => refines⟩
        rw [show l.length - m = ((a.alength : Int) - m).toNat by omega,
          show m + ((a.alength : Int) - m).toNat = a.alength by omega] at spliced
        rw [resize, if_neg (by omega), if_pos (by omega), spliced]
        rfl
      · obtain rfl : m = l.length := by omega
        rw [List.take_length] at short
        refine ⟨a, l, ?_, short, fun _ less => by omega, fun _ => h⟩
        rw [resize, if_neg (by omega), if_neg (by omega)]
        rfl

end Haxe.Source.Macro.EvalArray
