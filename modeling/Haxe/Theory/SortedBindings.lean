import Mathlib.Data.Int.Order.Basic
import Mathlib.Order.Basic
import Mathlib.Tactic.SplitIfs

/-!
# Sorted lists of bindings

Finite maps as lists of keys with values, in strictly increasing order of the keys. The keys are
compared by a function to the integers, and the keys that it does not tell apart are one key.
-/

namespace Haxe.Theory.SortedBindings

variable {K V : Type} {compare : K → K → Int}

/-- A comparison that is a total order up to the keys that are equal to it. -/
structure TotalOrder (compare : K → K → Int) : Prop where
  symm : ∀ a b, compare a b < 0 ↔ 0 < compare b a
  trans : ∀ a b c, compare a b ≤ 0 → compare b c ≤ 0 → compare a c ≤ 0

namespace TotalOrder

variable (order : TotalOrder compare)

include order

theorem self (a : K) : compare a a = 0 := by
  have := order.symm a a
  omega

theorem eq_symm {a b : K} (equal : compare a b = 0) : compare b a = 0 := by
  have := order.symm a b
  have := order.symm b a
  omega

theorem lt_of_le_of_lt {a b c : K} (first : compare a b ≤ 0) (second : compare b c < 0) :
    compare a c < 0 := by
  have := order.trans c a b
  have := order.symm b c
  have := order.symm a c
  have := order.symm c a
  omega

theorem lt_of_lt_of_le {a b c : K} (first : compare a b < 0) (second : compare b c ≤ 0) :
    compare a c < 0 := by
  have := order.trans b c a
  have := order.symm a b
  have := order.symm c a
  have := order.symm a c
  omega

theorem congr_left {a b c : K} (equal : compare a b = 0) (right : compare a c = 0) :
    compare b c = 0 := by
  have back := order.eq_symm equal
  have forth := order.trans b a c back.le right.le
  have returned := order.trans c a b (order.eq_symm right).le equal.le
  have := order.symm b c
  omega

end TotalOrder

/-- The keys increase strictly. -/
def Sorted (compare : K → K → Int) (bs : List (K × V)) : Prop :=
  bs.Pairwise fun a b => compare a.1 b.1 < 0

/-- The binding of a key. -/
def lookup (compare : K → K → Int) (k : K) (bs : List (K × V)) : Option (K × V) :=
  bs.find? fun b => compare k b.1 = 0

@[grind =] def insert (compare : K → K → Int) (k : K) (v : V) : List (K × V) → List (K × V)
  | [] => [(k, v)]
  | b :: bs =>
    if compare k b.1 = 0 then (k, v) :: bs
    else if compare k b.1 < 0 then (k, v) :: b :: bs
    else b :: insert compare k v bs

def erase (compare : K → K → Int) (k : K) (bs : List (K × V)) : List (K × V) :=
  bs.filter fun b => compare k b.1 ≠ 0

theorem sorted_append {ls rs : List (K × V)} {b : K × V} :
    Sorted compare (ls ++ b :: rs) ↔ Sorted compare ls ∧ Sorted compare rs ∧
      (∀ l ∈ ls, compare l.1 b.1 < 0) ∧ (∀ r ∈ rs, compare b.1 r.1 < 0) ∧
      ∀ l ∈ ls, ∀ r ∈ rs, compare l.1 r.1 < 0 := by
  unfold Sorted
  rw [List.pairwise_append, List.pairwise_cons]
  simp only [List.mem_cons, forall_eq_or_imp]
  grind

section Middle

variable (order : TotalOrder compare) {ls rs : List (K × V)} {b : K × V} {k : K}
  (sorted : Sorted compare (ls ++ b :: rs))

include order sorted

/-- No binding in front of one with a lower key is the one of the key. -/
theorem front_ne (lower : 0 ≤ compare k b.1) : ∀ l ∈ ls, 0 < compare k l.1 := by
  intro l member
  have before := (sorted_append.mp sorted).2.2.1 l member
  apply (order.symm l.1 k).mp
  apply order.lt_of_lt_of_le before
  have := order.symm k b.1
  have := order.symm b.1 k
  omega

theorem back_ne (upper : compare k b.1 ≤ 0) : ∀ r ∈ rs, compare k r.1 < 0 := by
  intro r member
  exact order.lt_of_le_of_lt upper ((sorted_append.mp sorted).2.2.2.1 r member)

theorem lookup_front (less : compare k b.1 < 0) :
    lookup compare k (ls ++ b :: rs) = lookup compare k ls := by
  have none : (b :: rs).find? (fun b => compare k b.1 = 0) = none := by
    apply List.find?_eq_none.mpr
    intro r member
    rcases List.mem_cons.mp member with rfl | behind
    · simp [less.ne]
    · simp [(back_ne order sorted less.le r behind).ne]
  unfold lookup
  rw [List.find?_append, none, Option.or_none]

theorem lookup_middle (equal : compare k b.1 = 0) :
    lookup compare k (ls ++ b :: rs) = some b := by
  have none : ls.find? (fun b => compare k b.1 = 0) = none := by
    apply List.find?_eq_none.mpr
    intro l member
    simp [(front_ne order sorted equal.ge l member).ne']
  unfold lookup
  rw [List.find?_append, none, Option.none_or, List.find?_cons_of_pos (by simpa using equal)]

theorem lookup_back (more : 0 < compare k b.1) :
    lookup compare k (ls ++ b :: rs) = lookup compare k rs := by
  have none : ls.find? (fun b => compare k b.1 = 0) = none := by
    apply List.find?_eq_none.mpr
    intro l member
    simp [(front_ne order sorted more.le l member).ne']
  unfold lookup
  rw [List.find?_append, none, Option.none_or, List.find?_cons_of_neg (by simp [more.ne'])]

theorem insert_behind (v : V) (more : 0 ≤ compare k b.1) :
    insert compare k v (ls ++ b :: rs) = ls ++ insert compare k v (b :: rs) := by
  have front := front_ne order sorted more
  clear sorted
  induction ls with
  | nil => rfl
  | cons l ls ih =>
    have greater := front l List.mem_cons_self
    rw [List.cons_append, insert, if_neg greater.ne', if_neg (by omega),
      ih fun l member => front l (List.mem_cons_of_mem _ member)]
    rfl

theorem insert_middle (v : V) (equal : compare k b.1 = 0) :
    insert compare k v (ls ++ b :: rs) = ls ++ (k, v) :: rs := by
  rw [insert_behind order sorted v equal.ge, insert, if_pos equal]

theorem insert_back (v : V) (more : 0 < compare k b.1) :
    insert compare k v (ls ++ b :: rs) = ls ++ b :: insert compare k v rs := by
  rw [insert_behind order sorted v more.le, insert, if_neg more.ne', if_neg (by omega)]

omit order sorted in
theorem insert_front (v : V) (less : compare k b.1 < 0) :
    insert compare k v (ls ++ b :: rs) = insert compare k v ls ++ b :: rs := by
  induction ls with
  | nil =>
    change (if compare k b.1 = 0 then _ else if compare k b.1 < 0 then _ else _) = _
    rw [if_neg less.ne, if_pos less]
    rfl
  | cons l ls ih =>
    rw [List.cons_append, insert, insert]
    split_ifs
    · rfl
    · rfl
    · rw [ih]
      rfl

theorem erase_front (less : compare k b.1 < 0) :
    erase compare k (ls ++ b :: rs) = erase compare k ls ++ b :: rs := by
  unfold erase
  rw [List.filter_append]
  congr 1
  apply List.filter_eq_self.mpr
  intro r member
  rcases List.mem_cons.mp member with rfl | behind
  · simp [less.ne]
  · simp [(back_ne order sorted less.le r behind).ne]

theorem erase_middle (equal : compare k b.1 = 0) :
    erase compare k (ls ++ b :: rs) = ls ++ rs := by
  unfold erase
  rw [List.filter_append, List.filter_cons_of_neg (by simpa using equal)]
  congr 1
  · apply List.filter_eq_self.mpr
    intro l member
    simp [(front_ne order sorted equal.ge l member).ne']
  · apply List.filter_eq_self.mpr
    intro r member
    simp [(back_ne order sorted equal.le r member).ne]

theorem erase_back (more : 0 < compare k b.1) :
    erase compare k (ls ++ b :: rs) = ls ++ b :: erase compare k rs := by
  unfold erase
  rw [List.filter_append, List.filter_cons_of_pos (by simp [more.ne'])]
  congr 1
  apply List.filter_eq_self.mpr
  intro l member
  simp [(front_ne order sorted more.le l member).ne']

end Middle

section Operations

variable (order : TotalOrder compare) {bs : List (K × V)} {k k' : K} {v : V}

include order

/-- The binding of a key does not depend on which of its equal keys is asked for. -/
theorem lookup_congr (equal : compare k k' = 0) (bs : List (K × V)) :
    lookup compare k bs = lookup compare k' bs := by
  unfold lookup
  congr 1
  funext b
  apply decide_eq_decide.mpr
  constructor
  · exact order.congr_left equal
  · exact order.congr_left (order.eq_symm equal)

omit order in
/-- A key below a list and below a new key is below the list with the new key. -/
theorem insert_above {low : K} (above : ∀ b ∈ bs, compare low b.1 < 0) (new : compare low k < 0) :
    ∀ b ∈ insert compare k v bs, compare low b.1 < 0 := by
  induction bs with
  | nil => simpa [insert] using new
  | cons b bs ih =>
    obtain ⟨first, rest⟩ := List.forall_mem_cons.mp above
    unfold insert
    split_ifs
    · exact List.forall_mem_cons.mpr ⟨new, rest⟩
    · exact List.forall_mem_cons.mpr ⟨new, above⟩
    · exact List.forall_mem_cons.mpr ⟨first, ih rest⟩

theorem sorted_insert (sorted : Sorted compare bs) : Sorted compare (insert compare k v bs) := by
  induction bs with
  | nil => exact List.pairwise_singleton _ _
  | cons b bs ih =>
    obtain ⟨first, rest⟩ := List.pairwise_cons.mp sorted
    unfold insert
    split_ifs with equal less
    · apply List.pairwise_cons.mpr ⟨?_, rest⟩
      intro r member
      exact order.lt_of_le_of_lt equal.le (first r member)
    · apply List.pairwise_cons.mpr ⟨?_, sorted⟩
      intro r member
      rcases List.mem_cons.mp member with rfl | behind
      · exact less
      · exact order.lt_of_le_of_lt less.le (first r behind)
    · apply List.pairwise_cons.mpr ⟨?_, ih rest⟩
      apply insert_above first
      have := order.symm b.1 k
      omega

theorem lookup_insert (sorted : Sorted compare bs) :
    lookup compare k' (insert compare k v bs) =
      if compare k' k = 0 then some (k, v) else lookup compare k' bs := by
  induction bs with
  | nil =>
    unfold lookup insert
    split_ifs with equal
    · exact List.find?_cons_of_pos (by simpa using equal)
    · exact List.find?_cons_of_neg (by simpa using equal)
  | cons b bs ih =>
    have rest := (List.pairwise_cons.mp sorted).2
    unfold insert
    by_cases equal : compare k b.1 = 0
    · rw [if_pos equal]
      have same : compare k' b.1 = 0 ↔ compare k' k = 0 := by
        constructor
        · intro found
          exact order.congr_left (order.eq_symm found) (order.eq_symm equal)
        · intro found
          exact order.congr_left (order.eq_symm found) equal
      unfold lookup
      rw [List.find?_cons, List.find?_cons]
      by_cases found : compare k' k = 0
      · simp [found]
      · simp [found, same]
    rw [if_neg equal]
    by_cases less : compare k b.1 < 0
    · rw [if_pos less]
      unfold lookup
      rw [List.find?_cons]
      by_cases found : compare k' k = 0 <;> simp [found]
    · rw [if_neg less]
      have step := ih rest
      unfold lookup at step ⊢
      rw [List.find?_cons, List.find?_cons, step]
      by_cases found : compare k' b.1 = 0
      · have other : compare k' k ≠ 0 := by
          intro same
          exact equal (order.congr_left same found)
        simp [found, other]
      · simp [found]

omit order in
theorem sorted_erase (sorted : Sorted compare bs) : Sorted compare (erase compare k bs) :=
  sorted.filter _

theorem lookup_erase :
    lookup compare k' (erase compare k bs) =
      if compare k' k = 0 then none else lookup compare k' bs := by
  unfold lookup erase
  rw [List.find?_filter]
  split_ifs with equal
  · apply List.find?_eq_none.mpr
    intro b _
    simp only [decide_eq_true_eq, not_and]
    intro other found
    exact other (order.congr_left equal found)
  · congr 1
    funext b
    by_cases found : compare k' b.1 = 0
    · have other : compare k b.1 ≠ 0 := by
        intro same
        exact equal (order.congr_left (order.eq_symm found) (order.eq_symm same))
      simp [found, other]
    · simp [found]

omit order in
/-- A sorted list holds the bindings that are found in it. -/
theorem mem_iff_lookup (order : TotalOrder compare) (sorted : Sorted compare bs) {b : K × V} :
    b ∈ bs ↔ lookup compare b.1 bs = some b := by
  constructor
  · intro member
    obtain ⟨ls, rs, rfl⟩ := List.append_of_mem member
    exact lookup_middle order sorted (order.self b.1)
  · exact List.mem_of_find?_eq_some

end Operations

end Haxe.Theory.SortedBindings
