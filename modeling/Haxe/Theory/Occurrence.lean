import Mathlib.Data.List.Infix

/-!
# Occurrences of a sequence in a sequence

The first and the last place at which a needle occurs, and what splitting at its occurrences
from left to right gives.
-/

namespace Haxe.Theory.Occurrence

variable {α : Type*} [DecidableEq α]

/-- The first place of the needle. -/
@[grind =] def first (needle : List α) : List α → Option Nat
  | [] => if needle = [] then some 0 else none
  | h :: hay => if needle <+: h :: hay then some 0 else (first needle hay).map (· + 1)

/-- The last place of the needle that is not behind `n`. -/
@[grind =] def lastUpTo (needle hay : List α) : Nat → Option Nat
  | 0 => if needle <+: hay then some 0 else none
  | n + 1 => if needle <+: hay.drop (n + 1) then some (n + 1) else lastUpTo needle hay n

theorem first_eq_some {needle hay : List α} {q : Nat} (found : first needle hay = some q) :
    needle <+: hay.drop q ∧ ∀ k < q, ¬ needle <+: hay.drop k := by
  induction hay generalizing q with
  | nil =>
    unfold first at found
    split at found
    · rename_i empty
      obtain rfl := Option.some.inj found
      exact ⟨empty ▸ List.nil_prefix, fun k below => absurd below (Nat.not_lt_zero k)⟩
    · cases found
  | cons h hay ih =>
    unfold first at found
    split at found
    · rename_i here
      obtain rfl := Option.some.inj found
      exact ⟨here, fun k below => absurd below (Nat.not_lt_zero k)⟩
    · rename_i absent
      obtain ⟨q', rest, rfl⟩ := Option.map_eq_some_iff.mp found
      obtain ⟨occurs, before⟩ := ih rest
      refine ⟨occurs, fun k below => ?_⟩
      cases k with
      | zero => exact absent
      | succ k => exact before k (Nat.lt_of_succ_lt_succ below)

/-- An occurrence lies inside. -/
theorem first_bound {needle hay : List α} {q : Nat} (found : first needle hay = some q) :
    q + needle.length ≤ hay.length ∨ needle = [] := by
  have occurs := (first_eq_some found).1.length_le
  rw [List.length_drop] at occurs
  by_cases empty : needle = []
  · exact Or.inr empty
  · have := List.length_pos_iff.mpr empty
    omega

theorem lastUpTo_eq_some {needle hay : List α} {n q : Nat}
    (found : lastUpTo needle hay n = some q) :
    q ≤ n ∧ needle <+: hay.drop q ∧ ∀ k, q < k → k ≤ n → ¬ needle <+: hay.drop k := by
  induction n with
  | zero =>
    unfold lastUpTo at found
    split at found
    · rename_i here
      obtain rfl := Option.some.inj found
      exact ⟨Nat.le_refl 0, here, fun k above upto => absurd above (by omega)⟩
    · cases found
  | succ n ih =>
    unfold lastUpTo at found
    split at found
    · rename_i here
      obtain rfl := Option.some.inj found
      exact ⟨Nat.le_refl _, here, fun k above upto => absurd above (by omega)⟩
    · rename_i absent
      obtain ⟨low, occurs, later⟩ := ih found
      refine ⟨by omega, occurs, fun k above upto => ?_⟩
      by_cases top : k = n + 1
      · exact top ▸ absent
      · exact later k above (by omega)

/-- Where the needle does not occur nothing changes. -/
theorem lastUpTo_eq_of_le {needle hay : List α} {n m : Nat} (order : n ≤ m)
    (absent : ∀ k, n < k → k ≤ m → ¬ needle <+: hay.drop k) :
    lastUpTo needle hay m = lastUpTo needle hay n := by
  induction m with
  | zero =>
    obtain rfl : n = 0 := by omega
    rfl
  | succ m ih =>
    by_cases same : n = m + 1
    · rw [same]
    · rw [lastUpTo, if_neg (absent (m + 1) (by omega) (Nat.le_refl _))]
      exact ih (by omega) fun k above upto => absent k above (by omega)

omit [DecidableEq α] in
theorem not_prefix_drop {needle hay : List α} {k : Nat} (nonempty : needle ≠ [])
    (narrow : hay.length < k + needle.length) : ¬ needle <+: hay.drop k := by
  intro occurs
  have length := occurs.length_le
  have positive := List.length_pos_iff.mpr nonempty
  rw [List.length_drop] at length
  omega

/-- The pieces between the occurrences, taken from left to right without overlap; an empty needle
cuts out every element. -/
@[grind =] def pieces (needle : List α) (hay : List α) : List (List α) :=
  if _nonempty : needle = [] then hay.map fun x => [x]
  else
    match _found : first needle hay with
    | none => [hay]
    | some q => hay.take q :: pieces needle (hay.drop (q + needle.length))
termination_by hay.length
decreasing_by
  have inside := (first_bound _found).resolve_right _nonempty
  have := List.length_pos_iff.mpr _nonempty
  rw [List.length_drop]
  omega

theorem pieces_none {needle hay : List α} (nonempty : needle ≠ [])
    (absent : first needle hay = none) : pieces needle hay = [hay] := by
  rw [pieces, dif_neg nonempty]
  split
  · rfl
  · rename_i found
    rw [absent] at found
    cases found

theorem pieces_some {needle hay : List α} (nonempty : needle ≠ []) {q : Nat}
    (found : first needle hay = some q) :
    pieces needle hay = hay.take q :: pieces needle (hay.drop (q + needle.length)) := by
  rw [pieces, dif_neg nonempty]
  split
  · rename_i absent
    rw [absent] at found
    cases found
  · rename_i found'
    obtain rfl := Option.some.inj (found.symm.trans found')
    rfl

theorem pieces_ne_nil {needle : List α} (nonempty : needle ≠ []) (hay : List α) :
    pieces needle hay ≠ [] := by
  cases found : first needle hay with
  | none =>
    rw [pieces_none nonempty found]
    exact List.cons_ne_nil _ _
  | some q =>
    rw [pieces_some nonempty found]
    exact List.cons_ne_nil _ _

/-- What remains behind the first occurrence is shorter. -/
theorem length_behind {needle hay : List α} (nonempty : needle ≠ []) {q : Nat}
    (found : first needle hay = some q) :
    (hay.drop (q + needle.length)).length < hay.length := by
  have inside := (first_bound found).resolve_right nonempty
  have := List.length_pos_iff.mpr nonempty
  rw [List.length_drop]
  omega

/-- The occurrences are replaced. -/
def replaced (needle by' hay : List α) : List α := by'.intercalate (pieces needle hay)

theorem replaced_none {needle hay : List α} (by' : List α) (nonempty : needle ≠ [])
    (absent : first needle hay = none) : replaced needle by' hay = hay := by
  unfold replaced
  rw [pieces_none nonempty absent]
  simp [List.intercalate]

theorem replaced_some {needle hay : List α} (by' : List α) (nonempty : needle ≠ []) {q : Nat}
    (found : first needle hay = some q) :
    replaced needle by' hay =
      hay.take q ++ by' ++ replaced needle by' (hay.drop (q + needle.length)) := by
  unfold replaced
  rw [pieces_some nonempty found]
  obtain ⟨piece, rest, behind⟩ := List.exists_cons_of_ne_nil
    (pieces_ne_nil nonempty (hay.drop (q + needle.length)))
  rw [behind]
  simp [List.intercalate, List.intersperse]

/-- How many occurrences are replaced. -/
theorem replaced_length {needle : List α} (by' : List α) (nonempty : needle ≠ [])
    (hay : List α) : ∃ n : Nat, ((replaced needle by' hay).length : Int) =
      hay.length + by'.length * n - needle.length * n := by
  induction len : hay.length using Nat.strongRecOn generalizing hay with
  | ind l ih =>
    cases found : first needle hay with
    | none =>
      refine ⟨0, ?_⟩
      rw [replaced_none by' nonempty found, len]
      simp
    | some q =>
      obtain ⟨n, rest⟩ := ih _ (len ▸ length_behind nonempty found) _ rfl
      have inside := (first_bound found).resolve_right nonempty
      refine ⟨n + 1, ?_⟩
      rw [replaced_some by' nonempty found]
      simp only [List.length_append, List.length_take, List.length_drop] at rest ⊢
      push_cast
      rw [rest, Int.mul_add, Int.mul_add]
      omega

/-- Replacing the needle by itself changes nothing. -/
theorem replaced_self {needle : List α} (nonempty : needle ≠ []) (hay : List α) :
    replaced needle needle hay = hay := by
  induction len : hay.length using Nat.strongRecOn generalizing hay with
  | ind l ih =>
    cases found : first needle hay with
    | none => exact replaced_none needle nonempty found
    | some q =>
      obtain ⟨behind, split'⟩ := (first_eq_some found).1
      have rest : hay.drop (q + needle.length) = behind := by
        rw [← List.drop_drop, ← split', List.drop_left]
      rw [replaced_some needle nonempty found,
        ih _ (len ▸ length_behind nonempty found) _ rfl, rest, List.append_assoc, split',
        List.take_append_drop]

/-- A text with an occurrence is changed by replacing it by something else. -/
theorem replaced_ne {needle by' hay : List α} (nonempty : needle ≠ []) {q : Nat}
    (found : first needle hay = some q) (other : by' ≠ needle) :
    replaced needle by' hay ≠ hay := by
  intro same
  obtain ⟨behind, split'⟩ := (first_eq_some found).1
  have text : hay.take q ++ (needle ++ behind) = hay := by
    rw [split', List.take_append_drop]
  have rest : hay.drop (q + needle.length) = behind := by
    rw [← List.drop_drop, ← split', List.drop_left]
  rw [replaced_some by' nonempty found, rest, List.append_assoc] at same
  have tails : by' ++ replaced needle by' behind = needle ++ behind :=
    List.append_cancel_left (same.trans text.symm)
  obtain ⟨n, length⟩ := replaced_length by' nonempty behind
  have lengths := congrArg (fun l => (List.length l : Int)) tails
  simp only [List.length_append] at lengths
  push_cast at lengths
  have product : ((by'.length : Int) - needle.length) * (n + 1) = 0 := by
    rw [Int.sub_mul, Int.mul_add, Int.mul_add]
    omega
  rcases Int.mul_eq_zero.mp product with equal | never
  · exact other (List.append_inj_left tails (by omega))
  · omega

end Haxe.Theory.Occurrence
