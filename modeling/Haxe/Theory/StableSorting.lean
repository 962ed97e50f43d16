import Mathlib.Tactic.ByContra

/-!
# Stable sorting

Lists in the order of a comparison, and rearrangements that keep the order of the elements that
compare equal.
-/

namespace Haxe.Theory.StableSorting

variable {T : Type} {cmp : T → T → Int}

/-- The sign of the comparison is that of a total preorder. -/
structure TotalPreorder (cmp : T → T → Int) : Prop where
  turns : ∀ x y, cmp x y < 0 ↔ 0 < cmp y x
  trans : ∀ {x y z}, cmp x y ≤ 0 → cmp y z ≤ 0 → cmp x z ≤ 0

def Ordered (cmp : T → T → Int) (l : List T) : Prop := l.Pairwise fun x y => cmp x y ≤ 0

/-- The elements that compare equal to one. -/
def ties (cmp : T → T → Int) (z : T) (l : List T) : List T := l.filter fun x => cmp x z = 0

/-- A permutation that keeps the order among elements that compare equal. -/
structure Stably (cmp : T → T → Int) (l l' : List T) : Prop where
  perm : l'.Perm l
  ties_eq : ∀ z, ties cmp z l' = ties cmp z l

/-- All of one list is below all of another. -/
def Below (cmp : T → T → Int) (l l' : List T) : Prop := ∀ x ∈ l, ∀ y ∈ l', cmp x y ≤ 0

/-- All of one list is strictly below all of another. -/
def Under (cmp : T → T → Int) (l l' : List T) : Prop := ∀ x ∈ l, ∀ y ∈ l', cmp x y < 0

namespace TotalPreorder

theorem lt_of_lt_of_le (preorder : TotalPreorder cmp) {x y z : T} (less : cmp x y < 0)
    (most : cmp y z ≤ 0) : cmp x z < 0 := by
  by_contra reached
  rw [preorder.turns] at less reached
  have back : cmp z x ≤ 0 := by omega
  have := preorder.trans most back
  omega

theorem lt_of_le_of_lt (preorder : TotalPreorder cmp) {x y z : T} (most : cmp x y ≤ 0)
    (less : cmp y z < 0) : cmp x z < 0 := by
  by_contra reached
  rw [preorder.turns] at less reached
  have back : cmp z x ≤ 0 := by omega
  have := preorder.trans back most
  omega

theorem le_of_not_lt (preorder : TotalPreorder cmp) {x y : T} (reached : ¬cmp x y < 0) :
    cmp y x ≤ 0 := by
  rw [preorder.turns] at reached
  omega

theorem irrefl (preorder : TotalPreorder cmp) (x : T) : cmp x x = 0 := by
  have := preorder.turns x x
  omega

end TotalPreorder

theorem Stably.refl (l : List T) : Stably cmp l l := ⟨.refl l, fun _ => rfl⟩

theorem Stably.trans {l l' l'' : List T} (first : Stably cmp l l') (second : Stably cmp l' l'') :
    Stably cmp l l'' :=
  ⟨second.perm.trans first.perm, fun z => (second.ties_eq z).trans (first.ties_eq z)⟩

theorem ties_append (z : T) (l l' : List T) :
    ties cmp z (l ++ l') = ties cmp z l ++ ties cmp z l' := List.filter_append ..

theorem Stably.append {l₁ l₁' l₂ l₂' : List T} (first : Stably cmp l₁ l₁')
    (second : Stably cmp l₂ l₂') : Stably cmp (l₁ ++ l₂) (l₁' ++ l₂') := by
  refine ⟨first.perm.append second.perm, ?_⟩
  intro z
  rw [ties_append, ties_append, first.ties_eq, second.ties_eq]

theorem Stably.length_eq {l l' : List T} (stably : Stably cmp l l') : l'.length = l.length :=
  stably.perm.length_eq

/-- Two blocks may change places if every element of one is strictly below the other. -/
theorem Stably.exchange (preorder : TotalPreorder cmp) {l l' : List T} (under : Under cmp l' l) :
    Stably cmp (l ++ l') (l' ++ l) := by
  refine ⟨List.perm_append_comm, ?_⟩
  intro z
  rw [ties_append, ties_append]
  by_cases tied : ∃ y ∈ l', cmp y z = 0
  · obtain ⟨y, mem, same⟩ := tied
    have none_tied : ties cmp z l = [] := by
      apply List.filter_eq_nil_iff.mpr
      intro x mem' same'
      have less := preorder.lt_of_lt_of_le (under y mem x mem')
        (Int.le_of_eq (of_decide_eq_true same'))
      omega
    rw [none_tied, List.append_nil, List.nil_append]
  · have none_tied : ties cmp z l' = [] := by
      apply List.filter_eq_nil_iff.mpr
      intro y mem same
      exact tied ⟨y, mem, of_decide_eq_true same⟩
    rw [none_tied, List.append_nil, List.nil_append]

theorem Ordered.append {l l' : List T} (first : Ordered cmp l) (second : Ordered cmp l')
    (below : Below cmp l l') : Ordered cmp (l ++ l') := List.pairwise_append.mpr
  ⟨first, second, below⟩

theorem Ordered.split {l l' : List T} (ordered : Ordered cmp (l ++ l')) :
    Ordered cmp l ∧ Ordered cmp l' ∧ Below cmp l l' := List.pairwise_append.mp ordered

theorem Below.perm {l₁ l₁' l₂ l₂' : List T} (below : Below cmp l₁ l₂) (first : l₁'.Perm l₁)
    (second : l₂'.Perm l₂) : Below cmp l₁' l₂' :=
  fun x mem y mem' => below x (first.mem_iff.mp mem) y (second.mem_iff.mp mem')

/-- Below everything through an element in between. -/
theorem Below.through (preorder : TotalPreorder cmp) {l l' : List T} {p : T}
    (lower : ∀ x ∈ l, cmp x p ≤ 0) (upper : ∀ y ∈ l', cmp p y ≤ 0) : Below cmp l l' :=
  fun x mem y mem' => preorder.trans (lower x mem) (upper y mem')

/-- A list has one stable arrangement. -/
theorem Stably.unique (preorder : TotalPreorder cmp) {l l' l'' : List T}
    (stably : Stably cmp l l') (ordered : Ordered cmp l') (stably' : Stably cmp l l'')
    (ordered' : Ordered cmp l'') : l' = l'' := by
  induction l' generalizing l l'' with
  | nil => exact (List.perm_nil.mp (stably'.perm.trans stably.perm.symm)).symm
  | cons x l' ih =>
    have between : Stably cmp (x :: l') l'' :=
      ⟨stably'.perm.trans stably.perm.symm,
        fun z => (stably'.ties_eq z).trans (stably.ties_eq z).symm⟩
    cases l'' with
    | nil => exact absurd between.perm.symm.length_eq (Nat.succ_ne_zero _)
    | cons y l'' =>
      obtain ⟨first, rest⟩ := List.pairwise_cons.mp ordered
      obtain ⟨first', rest'⟩ := List.pairwise_cons.mp ordered'
      have self := preorder.irrefl x
      have below : cmp y x ≤ 0 := by
        rcases List.mem_cons.mp (between.perm.mem_iff.mpr List.mem_cons_self) with same | later
        · exact same ▸ Int.le_of_eq self
        · exact first' x later
      have above : cmp x y ≤ 0 := by
        rcases List.mem_cons.mp (between.perm.mem_iff.mp List.mem_cons_self) with same | later
        · rw [same]
          exact Int.le_of_eq self
        · exact first y later
      -- both are the first of the elements that compare equal to them
      have tied : cmp y x = 0 := by
        have := preorder.turns y x
        have := preorder.turns x y
        omega
      have ties_eq := between.ties_eq x
      rw [ties, ties, List.filter_cons, List.filter_cons, if_pos (decide_eq_true tied),
        if_pos (decide_eq_true self)] at ties_eq
      obtain rfl : y = x := (List.cons.inj ties_eq).1
      refine congrArg (y :: ·) (ih (.refl l') rest ⟨between.perm.cons_inv, fun z => ?_⟩ rest')
      have whole := between.ties_eq z
      rw [ties, ties, List.filter_cons, List.filter_cons] at whole
      split at whole
      · exact (List.cons.inj whole).2
      · exact whole

end Haxe.Theory.StableSorting
