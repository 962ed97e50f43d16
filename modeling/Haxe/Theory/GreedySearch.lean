import Mathlib.Data.List.Infix

/-!
# Searching without going back

A search that compares a needle in one pass, and that starts again behind what it has compared when
a partial occurrence ends. It sees the occurrences at its restart points only.
-/

namespace Haxe.Theory.GreedySearch

variable {α : Type} [DecidableEq α]

/-- How many elements of two lists agree from the front on. -/
def agreeing : List α → List α → Nat
  | a :: l, b :: l' => if a = b then agreeing l l' + 1 else 0
  | _, _ => 0

/-- The number is determined by what agrees and what ends it. -/
theorem agreeing_eq {l l' : List α} {j : Nat} (same : l.take j = l'.take j) (within : j ≤ l.length)
    (within' : j ≤ l'.length)
    (ends : ∀ a b, l[j]? = some a → l'[j]? = some b → a ≠ b) : agreeing l l' = j := by
  induction j generalizing l l' with
  | zero =>
    cases l with
    | nil => rfl
    | cons a l =>
      cases l' with
      | nil => rfl
      | cons b l' =>
        unfold agreeing
        rw [if_neg (ends a b rfl rfl)]
  | succ j ih =>
    cases l with
    | nil => cases within
    | cons a l =>
      cases l' with
      | nil => cases within'
      | cons b l' =>
        injection same with first rest
        unfold agreeing
        rw [if_pos first, ih rest (Nat.le_of_succ_le_succ within)
          (Nat.le_of_succ_le_succ within') ends]

/-- Where a search goes on that has compared at a place; it passes over some elements behind an
occurrence. -/
def jump (needle hay : List α) (skips : α → Bool) (r : Nat) : Nat :=
  r + max 1 (agreeing needle (hay.drop r)) +
    if needle <+: hay.drop r then ((hay.drop (r + needle.length)).takeWhile skips).length else 0

/-- The places at which a search compares the first element of the needle. -/
@[grind =] def restart (needle hay : List α) (skips : α → Bool) (origin : Nat) : Nat → Nat
  | 0 => origin
  | k + 1 => jump needle hay skips (restart needle hay skips origin k)

/-- A place at which the search begins to compare. -/
def IsRestart (needle hay : List α) (skips : α → Bool) (origin r : Nat) : Prop :=
  ∃ k, restart needle hay skips origin k = r

variable {needle hay : List α} {skips : α → Bool} {origin : Nat}

theorem lt_jump (r : Nat) : r < jump needle hay skips r := by
  unfold jump
  have := Nat.le_max_left 1 (agreeing needle (hay.drop r))
  omega

theorem restart_lt {k k' : Nat} (before : k < k') :
    restart needle hay skips origin k < restart needle hay skips origin k' := by
  induction before with
  | refl => exact lt_jump _
  | step _ ih => exact Nat.lt_trans ih (lt_jump _)

theorem restart_le {k k' : Nat} (upTo : k ≤ k') :
    restart needle hay skips origin k ≤ restart needle hay skips origin k' := by
  obtain before | rfl := Nat.lt_or_eq_of_le upTo
  · exact Nat.le_of_lt (restart_lt before)
  · exact Nat.le_refl _

theorem lt_of_restart_lt {k k' : Nat}
    (before : restart needle hay skips origin k < restart needle hay skips origin k') : k < k' := by
  by_contra behind
  exact absurd before (Nat.not_lt_of_le (restart_le (Nat.not_lt.mp behind)))

theorem origin_le_restart (k : Nat) : origin ≤ restart needle hay skips origin k :=
  @restart_le _ _ needle hay skips origin 0 k (Nat.zero_le k)

omit [DecidableEq α] in
/-- A nonempty needle does not occur behind the end. -/
theorem not_occurs (nonempty : needle ≠ []) {r : Nat} (beyond : hay.length ≤ r) :
    ¬ needle <+: hay.drop r := by
  rw [List.drop_of_length_le beyond]
  exact fun occurs => nonempty (List.prefix_nil.mp occurs)

/-- What a comparison at a place has found, and that it has not ended yet. -/
structure Comparing (needle hay : List α) (r j : Nat) : Prop where
  partly : j < needle.length
  inside : r + j ≤ hay.length
  same : needle.take j = (hay.drop r).take j

omit [DecidableEq α] in
theorem Comparing.start (nonempty : needle ≠ []) {r : Nat} (inside : r ≤ hay.length) :
    Comparing needle hay r 0 :=
  ⟨List.length_pos_iff.mpr nonempty, inside, rfl⟩

omit [DecidableEq α] in
/-- The next elements agree. -/
theorem Comparing.next {r j : Nat} (comparing : Comparing needle hay r j)
    (inside : r + j < hay.length) (equal : hay[r + j] = getElem needle j comparing.partly) :
    needle.take (j + 1) = (hay.drop r).take (j + 1) := by
  have partly := comparing.partly
  rw [List.take_succ_eq_append_getElem partly, List.take_succ_eq_append_getElem
    (by rw [List.length_drop]; omega), comparing.same, List.getElem_drop, equal]

omit [DecidableEq α] in
theorem Comparing.more {r j : Nat} (comparing : Comparing needle hay r j)
    (inside : r + j < hay.length) (equal : hay[r + j] = getElem needle j comparing.partly)
    (partly : j + 1 < needle.length) : Comparing needle hay r (j + 1) :=
  ⟨partly, inside, comparing.next inside equal⟩

omit [DecidableEq α] in
theorem occurs_of_take {r : Nat}
    (same : needle.take needle.length = (hay.drop r).take needle.length) :
    needle <+: hay.drop r := by
  rw [List.take_length] at same
  rw [same]
  exact List.take_prefix ..

omit [DecidableEq α] in
theorem Comparing.found {r j : Nat} (comparing : Comparing needle hay r j)
    (inside : r + j < hay.length) (equal : hay[r + j] = getElem needle j comparing.partly)
    (last : j + 1 = needle.length) : needle <+: hay.drop r := by
  have same := comparing.next inside equal
  rw [last] at same
  exact occurs_of_take same

/-- The next elements differ, or the text ends. -/
theorem Comparing.agreeing_eq {r j : Nat} (comparing : Comparing needle hay r j)
    (ends : ∀ inside : r + j < hay.length, hay[r + j] ≠ getElem needle j comparing.partly) :
    agreeing needle (hay.drop r) = j := by
  have partly := comparing.partly
  have inside := comparing.inside
  refine GreedySearch.agreeing_eq comparing.same (Nat.le_of_lt partly)
    (by rw [List.length_drop]; omega) ?_
  intro a b first second
  rw [List.getElem?_drop] at second
  obtain ⟨_, rfl⟩ := List.getElem?_eq_some_iff.mp first
  obtain ⟨within, rfl⟩ := List.getElem?_eq_some_iff.mp second
  exact (ends within).symm

theorem agreeing_of_occurs {l : List α} (occurs : needle <+: l) :
    agreeing needle l = needle.length := by
  obtain ⟨rest, rfl⟩ := occurs
  refine agreeing_eq ?_ (Nat.le_refl _) (by rw [List.length_append]; omega) ?_
  · rw [List.take_left, List.take_length]
  · intro a b first
    rw [List.getElem?_eq_none (Nat.le_refl _)] at first
    cases first

/-- A comparison that has ended has found nothing. -/
theorem Comparing.absent {r j : Nat} (comparing : Comparing needle hay r j)
    (ends : ∀ inside : r + j < hay.length, hay[r + j] ≠ getElem needle j comparing.partly) :
    ¬ needle <+: hay.drop r := by
  intro occurs
  have partly := comparing.partly
  have := (agreeing_of_occurs occurs).symm.trans (comparing.agreeing_eq ends)
  omega

theorem Comparing.jump_eq {r j : Nat} (comparing : Comparing needle hay r j) (skips : α → Bool)
    (ends : ∀ inside : r + j < hay.length, hay[r + j] ≠ getElem needle j comparing.partly) :
    jump needle hay skips r = r + max 1 j := by
  unfold jump
  rw [if_neg (comparing.absent ends), comparing.agreeing_eq ends, Nat.add_zero]

theorem jump_of_occurs (skips : α → Bool) (nonempty : needle ≠ []) {r : Nat}
    (occurs : needle <+: hay.drop r) :
    jump needle hay skips r =
      r + needle.length + ((hay.drop (r + needle.length)).takeWhile skips).length := by
  have := List.length_pos_iff.mpr nonempty
  unfold jump
  rw [if_pos occurs, agreeing_of_occurs occurs, Nat.max_eq_right this]

omit [DecidableEq α] in
theorem takeWhile_goes_on {l : List α} {e : Nat} {a : α} (passed : e ≤ (l.takeWhile skips).length)
    (here : l[e]? = some a) (skip : skips a = true) : e + 1 ≤ (l.takeWhile skips).length := by
  induction l generalizing e with
  | nil => cases here
  | cons b l ih =>
    cases e with
    | zero =>
      obtain rfl := Option.some.inj here
      rw [List.takeWhile_cons_of_pos skip]
      exact Nat.le_add_left ..
    | succ e =>
      by_cases first : skips b = true
      · rw [List.takeWhile_cons_of_pos first] at passed ⊢
        exact Nat.succ_le_succ (ih (Nat.le_of_succ_le_succ passed) here)
      · rw [List.takeWhile_cons_of_neg first] at passed
        cases passed

omit [DecidableEq α] in
theorem takeWhile_ends {l : List α} {e : Nat} {a : α} (passed : e ≤ (l.takeWhile skips).length)
    (here : l[e]? = some a) (stop : skips a = false) : (l.takeWhile skips).length = e := by
  induction l generalizing e with
  | nil => cases here
  | cons b l ih =>
    cases e with
    | zero =>
      obtain rfl := Option.some.inj here
      rw [List.takeWhile_cons_of_neg (by rw [stop]; decide)]
      rfl
    | succ e =>
      by_cases first : skips b = true
      · rw [List.takeWhile_cons_of_pos first] at passed ⊢
        exact congrArg Nat.succ (ih (Nat.le_of_succ_le_succ passed) here)
      · rw [List.takeWhile_cons_of_neg first] at passed
        cases passed

/-- Nothing occurs at the first restart points. -/
def AbsentUpTo (needle hay : List α) (skips : α → Bool) (origin k : Nat) : Prop :=
  ∀ i < k, ¬ needle <+: hay.drop (restart needle hay skips origin i)

theorem AbsentUpTo.succ {k : Nat} (absent : AbsentUpTo needle hay skips origin k)
    (last : ¬ needle <+: hay.drop (restart needle hay skips origin k)) :
    AbsentUpTo needle hay skips origin (k + 1) := by
  intro i before
  obtain earlier | rfl := Nat.lt_or_eq_of_le (Nat.le_of_lt_succ before)
  · exact absent i earlier
  · exact last

/-- The last one of the first restart points with an occurrence, if there is one. -/
def LatestUpTo (needle hay : List α) (skips : α → Bool) (origin k : Nat) (result : Option Nat) :
    Prop :=
  match result with
  | none => AbsentUpTo needle hay skips origin k
  | some r => ∃ i < k, r = restart needle hay skips origin i ∧ needle <+: hay.drop r ∧
    ∀ i', i < i' → i' < k → ¬ needle <+: hay.drop (restart needle hay skips origin i')

theorem LatestUpTo.absent {k : Nat} {result : Option Nat}
    (latest : LatestUpTo needle hay skips origin k result)
    (last : ¬ needle <+: hay.drop (restart needle hay skips origin k)) :
    LatestUpTo needle hay skips origin (k + 1) result := by
  cases result with
  | none => exact AbsentUpTo.succ latest last
  | some r =>
    obtain ⟨i, before, isRestart, occurs, later⟩ := latest
    refine ⟨i, Nat.lt_succ_of_lt before, isRestart, occurs, fun i' behind upTo => ?_⟩
    obtain earlier | rfl := Nat.lt_or_eq_of_le (Nat.le_of_lt_succ upTo)
    · exact later i' behind earlier
    · exact last

theorem LatestUpTo.found {k : Nat}
    (occurs : needle <+: hay.drop (restart needle hay skips origin k)) :
    LatestUpTo needle hay skips origin (k + 1) (some (restart needle hay skips origin k)) :=
  ⟨k, Nat.lt_succ_self k, rfl, occurs, fun _ behind upTo =>
    absurd behind (Nat.not_lt_of_le (Nat.le_of_lt_succ upTo))⟩

end Haxe.Theory.GreedySearch
